import MyMalloc.Classic.Jemalloc.Extents

/- `je_memalign` of the jemalloc-like allocator.

   The request is made larger by the alignment and sent to `je_large_alloc`, and
   the block is the start of the extent. The extra bytes are never used to move the
   start to a multiple of the alignment, so the block is aligned as far as a page
   is. The sum of size and alignment is not checked either: where it wraps, the
   extent is smaller than the request. `memalign_honours_iff` gives the requests
   that are served right by every kernel. -/
namespace MyMalloc.Jemalloc

variable {τ : Type} [DecidableEq τ]

/-- The bytes a call mapped, from the states before and after it. -/
def Mapped (s s' : State τ) (a : Nat) : Prop := s.mapped a = false ∧ s'.mapped a = true

/-- `je_free` of `p` unmaps what the call mapped and nothing else, whatever has happened
meanwhile, if the lookup of `p` still leads to its extent. -/
def Releases (s s' : State τ) (p : Nat) : Prop :=
  ∀ (t : τ) (s₂ : State τ), s₂.rtreeGet p = s'.rtreeGet p → s₂.ext (s'.rtreeGet p) = s'.ext (s'.rtreeGet p) →
    ∃ s₃, jeFree t p s₂ = some s₃ ∧
      ∀ a, (Mapped s s' a → s₃.mapped a = false) ∧ (¬ Mapped s s' a → s₃.mapped a = s₂.mapped a)

/-- The call returns null, or an aligned block of `size` bytes of its own that `je_free` releases. -/
def Honoured (alignment size : Nat) (s : State τ) (r : Option (Option Nat × State τ)) : Prop :=
  ∃ res s', r = some (res, s') ∧ ∀ p, res = some p →
    alignment ∣ p ∧ (∀ a, p ≤ a → a < p + size → Mapped s s' a) ∧ Releases s s' p

/-- The size `je_memalign` passes to `je_large_alloc`. -/
def memalignSize (alignment size : Nat) : Nat := (size + alignment) % 2^64

/-- The request is served right in every state, by every kernel that maps whole free pages. -/
def Honours (alignment size : Nat) : Prop :=
  ∀ (host : Host) (s : State Nat) (t : Nat),
    AnswerFits host (extentBytes (largePages (memalignSize alignment size))) s →
    Honoured alignment size s (jeMemalign host t alignment size s)

/-! ## The large path -/

theorem memalignSize_lt (alignment size : Nat) : memalignSize alignment size < 2^64 := Nat.mod_lt _ (by decide)

theorem jeMemalign_eq (host : Host) (t : τ) (s : State τ) {k : Nat} (size : Nat) (h : 16 < 2^k) :
    jeMemalign host t (2^k) size s = some (largeAlloc host (memalignSize (2^k) size) s) := by
  have hpow : 2^k &&& (2^k - 1) = 0 := by rw [Nat.and_two_pow_sub_one_eq_mod, Nat.mod_self]
  rw [jeMemalign, if_neg (Nat.not_le.mpr h), if_neg (not_not.mpr hpow), memalignSize]

/-! ## The block -/

section block
variable {s : State τ} {addr x : Nat}

omit [DecidableEq τ] in
theorem mapped_largeAlloc (hfit : Fits addr (extentBytes (largePages x)) s) (a : Nat) :
    Mapped s ((s.withExtent (largePages x) addr).modifyExt (s.exts + 1) ({ · with usize := x })) a ↔
      addr ≤ a ∧ a < addr + extentBytes (largePages x) := by
  dsimp only [Mapped, State.modifyExt, State.withExtent]
  constructor
  · rintro ⟨h1, h2⟩
    by_contra hno
    rw [if_neg hno, h1] at h2
    exact Bool.false_ne_true h2
  · intro hmem
    exact ⟨hfit.unused a hmem.1 hmem.2, if_pos hmem⟩

theorem releases_largeAlloc (hfit : Fits addr (extentBytes (largePages x)) s) (hpages : 0 < largePages x) :
    Releases s ((s.withExtent (largePages x) addr).modifyExt (s.exts + 1) ({ · with usize := x })) addr := by
  intro t s₂ hget hext
  have hself : ((s.withExtent (largePages x) addr).modifyExt (s.exts + 1) ({ · with usize := x })).rtreeGet addr =
      s.exts + 1 := rtreeSet_first _ _ hpages _
  rw [hself] at hget hext
  rw [modifyExt_self, withExtent_ext_self] at hext
  refine ⟨extentFree (s.exts + 1) s₂, ?_, fun a => ?_⟩
  · simp only [jeFree, hget, if_neg (Nat.succ_ne_zero _), hext]
    rfl
  · -- the extent that is unmapped is the one that was mapped
    have hmap : (extentFree (s.exts + 1) s₂).mapped a =
        if addr ≤ a ∧ a < addr + extentBytes (largePages x) then false else s₂.mapped a := by
      simp only [extentFree, munmap, hext]
    rw [mapped_largeAlloc hfit, hmap]
    exact ⟨fun h => if_pos h, fun h => if_neg h⟩

end block

theorem honoured_of_small_alignment (host : Host) (t : τ) (s : State τ) {k size : Nat} (h16 : 16 < 2^k)
    (hk : 2^k ≤ pageSize) (hsum : size + 2^k < 2^64)
    (hfit : AnswerFits host (extentBytes (largePages (memalignSize (2^k) size))) s) :
    Honoured (2^k) size s (jeMemalign host t (2^k) size s) := by
  have hsize : memalignSize (2^k) size = size + 2^k := Nat.mod_eq_of_lt hsum
  refine ⟨(largeAlloc host _ s).1, (largeAlloc host _ s).2, jeMemalign_eq host t s size h16, fun p hp => ?_⟩
  obtain ⟨-, hnone⟩ | ⟨addr, h0, ha, he⟩ := largeAlloc_cases host s (memalignSize (2^k) size)
  · exact absurd ((congrArg Prod.fst hnone).symm.trans hp) (Option.some_ne_none p).symm
  rw [he] at hp ⊢
  obtain rfl := Option.some.inj hp
  have hgranted : ¬ Refused64 (memalignSize (2^k) size) :=
    fun hr => h0 (extentBytes_refused (memalignSize_lt _ _) hr)
  obtain ⟨hpages, hbytes⟩ := extentBytes_granted (memalignSize_lt _ _) hgranted
  refine ⟨?_, fun a h1 h2 => ?_, releases_largeAlloc (hfit addr ha) hpages⟩
  · calc
      2^k ∣ 2^12 := pow_dvd_pow 2 ((Nat.pow_le_pow_iff_right (by decide)).mp hk)
      _ ∣ addr := (hfit addr ha).dvd
  · rw [mapped_largeAlloc (hfit addr ha), hbytes, hsize]
    omega

theorem honoured_of_refused (host : Host) (t : τ) (s : State τ) {k size : Nat} (h16 : 16 < 2^k)
    (hr : Refused64 (memalignSize (2^k) size)) : Honoured (2^k) size s (jeMemalign host t (2^k) size s) := by
  refine ⟨(largeAlloc host _ s).1, (largeAlloc host _ s).2, jeMemalign_eq host t s size h16, fun p hp => ?_⟩
  obtain ⟨-, hnone⟩ | ⟨addr, h0, -⟩ := largeAlloc_cases host s (memalignSize (2^k) size)
  · exact absurd ((congrArg Prod.fst hnone).symm.trans hp) (Option.some_ne_none p).symm
  · exact absurd (extentBytes_refused (memalignSize_lt _ _) hr) h0

/-! ## The kernel that answers with the second page -/

/-- Every mapping is put at address 4096. -/
def pageHost : Host := ⟨fun _ => some 4096, fun k => 16 * (k + 1), Host.spaced_pos⟩

theorem pageHost_fits (size : Nat) : AnswerFits pageHost size (State.start Nat) := by
  intro addr ha
  obtain rfl := Option.some.inj ha
  exact ⟨Nat.dvd_refl _, by decide, fun _ _ _ => rfl⟩

/-- The first block of such a process is aligned to a page and no better, and has the bytes of its pages. -/
theorem pageHost_honoured {k size : Nat} (h16 : 16 < 2^k) (hgranted : ¬ Refused64 (memalignSize (2^k) size))
    (h : Honoured (2^k) size (State.start Nat) (jeMemalign pageHost 0 (2^k) size (State.start Nat))) :
    2^k ∣ 4096 ∧ size ≤ (memalignSize (2^k) size + 4095) / 4096 * 4096 := by
  obtain ⟨hpages, hbytes⟩ := extentBytes_granted (memalignSize_lt _ _) hgranted
  obtain ⟨res, s', hr, hp⟩ := h
  rw [jeMemalign_eq _ _ _ _ h16] at hr
  -- the kernel answers, so the call succeeds
  obtain ⟨hno, -⟩ | ⟨addr, -, ha, he⟩ := largeAlloc_cases pageHost (State.start Nat) (memalignSize (2^k) size)
  · rcases hno with h0 | hno
    · rw [Refused64] at hgranted
      omega
    · cases hno
  obtain rfl := Option.some.inj ha
  rw [he] at hr
  obtain ⟨rfl, rfl⟩ := Prod.mk.inj (Option.some.inj hr)
  obtain ⟨hdvd, hmap, -⟩ := hp 4096 rfl
  refine ⟨hdvd, ?_⟩
  by_contra hlt
  -- the byte after the last page is not mapped
  have := (mapped_largeAlloc (pageHost_fits _ _ rfl) _).mp (hmap (4096 + (size - 1)) (by omega) (by omega))
  rw [hbytes] at this
  omega

/-- A request is honoured exactly if it is always refused, or the alignment is at most a page and
the sum of size and alignment does not wrap. -/
theorem memalign_honours_iff (alignment size : UInt64) (k : Nat) (hpow : alignment.toNat = 2^k)
    (h16 : 16 < alignment.toNat) :
    Honours alignment.toNat size.toNat ↔
      Refused64 (memalignSize alignment.toNat size.toNat) ∨
      alignment.toNat ≤ pageSize ∧ size.toNat + alignment.toNat < 2^64 := by
  have hsize := size.toNat_lt
  have halign := alignment.toNat_lt
  rw [hpow] at h16 halign ⊢
  constructor
  · intro h
    by_cases hr : Refused64 (memalignSize (2^k) size.toNat)
    · exact .inl hr
    · obtain ⟨hdvd, hle⟩ := pageHost_honoured h16 hr (h pageHost _ 0 (pageHost_fits _))
      have hk : 2^k ≤ pageSize := Nat.le_of_dvd (by decide) hdvd
      refine .inr ⟨hk, ?_⟩
      by_contra hwrap
      -- a sum that wraps leaves at most one page
      have hpage : pageSize = 4096 := rfl
      rw [memalignSize] at hle
      omega
  · rintro (hr | ⟨hk, hsum⟩) host s t hfit
    · exact honoured_of_refused host t s h16 hr
    · exact honoured_of_small_alignment host t s h16 hk hsum hfit

theorem memalign_64_honoured :
    (64 : UInt64).toNat = 2^6 ∧ Honours (64 : UInt64).toNat (100 : UInt64).toNat :=
  ⟨rfl, (memalign_honours_iff 64 100 6 rfl (by decide)).mpr (.inr (by decide))⟩

/-- An alignment of two pages gets a block at an odd page, and a size near 2^64 gets one page. -/
theorem memalign_8192_misaligned :
    ((jeMemalign pageHost 0 8192 100 (State.start Nat)).map (·.1) = some (some 4096) ∧ ¬ 8192 ∣ 4096) ∧
      ((jeMemalign pageHost 0 4096 (2^64 - 100) (State.start Nat)).map (fun r => (r.1, r.2.mapped 8191, r.2.mapped 8192)) =
        some (some 4096, true, false)) := by
  decide +kernel

end MyMalloc.Jemalloc
