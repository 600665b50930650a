import MyMalloc.Classic.Jemalloc.Usable

/- The extents of the jemalloc-like allocator as regions of memory.

   An extent is live from `extent_alloc` to `extent_free`. As long as the kernel
   places each mapping on whole pages that are not in use, the live extents are
   mapped, begin and end at page boundaries and lie apart (`ExtentsOk`). The rtree is
   not part of this: an entry may be lost or lead to the wrong extent, the extents
   themselves stay in order. -/
namespace MyMalloc.Jemalloc

variable {τ : Type}

/-! ## Pages and slots -/

theorem extentBytes_eq (pages : Nat) : extentBytes pages = pages * 4096 % 2^64 := by
  rw [extentBytes, show pageSize = 4096 from rfl, show (4096 - 1 : Nat) = 2^12 - 1 from rfl,
    maskOff_two_pow (Nat.mod_lt _ (by decide)) (by omega)]
  omega

theorem dvd_extentBytes (pages : Nat) : pageSize ∣ extentBytes pages := by
  rw [extentBytes_eq, show pageSize = 4096 from rfl]
  omega

/-- The bytes `je_huge_alloc` maps. -/
def hugeBytes (size : Nat) : Nat := maskOff ((size + (pageSize - 1)) % 2^64) (pageSize - 1)

/-- A size that is always refused: it rounds to nothing. -/
def Refused64 (x : Nat) : Prop := x = 0 ∨ 2^64 - pageSize < x

theorem extentBytes_refused {x : Nat} (hx : x < 2^64) (h : Refused64 x) : extentBytes (largePages x) = 0 := by
  have hpage : pageSize = 4096 := rfl
  have hpages : largePages x = 0 := by
    rw [Refused64, hpage] at h
    rw [largePages, hpage, Nat.shiftRight_eq_div_pow]
    omega
  rw [hpages, extentBytes_eq, Nat.zero_mul, Nat.zero_mod]

theorem extentBytes_granted {x : Nat} (hx : x < 2^64) (h : ¬ Refused64 x) :
    0 < largePages x ∧ extentBytes (largePages x) = (x + 4095) / 4096 * 4096 := by
  have hpage : pageSize = 4096 := rfl
  rw [Refused64, hpage] at h
  have hpages : largePages x = (x + 4095) / 4096 := by
    rw [largePages, hpage, Nat.shiftRight_eq_div_pow]
    omega
  rw [extentBytes_eq, hpages]
  omega

/-- The slots that the loop over the pages of an extent writes. -/
def Writes (addr pages a : Nat) : Prop := ∃ i < pages, rtreeSlot (addr + i * pageSize) = rtreeSlot a

theorem rtreeSet_of_writes {addr pages a : Nat} (g : Nat) (r : Nat → Nat) (h : Writes addr pages a) :
    rtreeSet addr g pages r (rtreeSlot a) = g := by
  induction pages with
  | zero =>
    obtain ⟨i, hi, -⟩ := h
    exact absurd hi (Nat.not_lt_zero i)
  | succ n ih =>
    rw [rtreeSet]
    by_cases e : rtreeSlot a = rtreeSlot (addr + n * pageSize)
    · rw [e, Function.update_self]
    · rw [Function.update_of_ne e]
      obtain ⟨i, hi, hs⟩ := h
      have hne : i ≠ n := fun hin => e (hin ▸ hs.symm)
      exact ih ⟨i, by omega, hs⟩

theorem rtreeSet_of_not_writes {addr pages a : Nat} (g : Nat) (r : Nat → Nat) (h : ¬ Writes addr pages a) :
    rtreeSet addr g pages r (rtreeSlot a) = r (rtreeSlot a) := by
  induction pages with
  | zero => rfl
  | succ n ih =>
    rw [rtreeSet, Function.update_of_ne fun e => h ⟨n, by omega, e.symm⟩]
    refine ih fun hw => ?_
    obtain ⟨i, hi, hs⟩ := hw
    exact h ⟨i, by omega, hs⟩

/-- The slot of a byte of an extent is among those of its pages. -/
theorem writes_of_mem {addr bytes pages a : Nat} (haddr : pageSize ∣ addr) (hbytes : bytes ≤ pages * pageSize)
    (h1 : addr ≤ a) (h2 : a < addr + bytes) : Writes addr pages a := by
  have hpage : pageSize = 4096 := rfl
  rw [hpage] at haddr hbytes
  refine ⟨(a - addr) / 4096, by omega, ?_⟩
  rw [rtreeSlot, rtreeSlot, hpage, Nat.shiftRight_eq_div_pow, Nat.shiftRight_eq_div_pow]
  congr 1
  omega

/-! ## Live extents -/

/-- `extent_alloc` has returned the extent and `extent_free` was not called on it. -/
def State.Live (s : State τ) (g : Nat) : Prop := 0 < g ∧ g ≤ s.exts ∧ g ∉ s.freed

/-- The live extent `g` contains the address `a`. -/
def State.Holds (s : State τ) (g a : Nat) : Prop :=
  s.Live g ∧ (s.ext g).addr ≤ a ∧ a < (s.ext g).addr + (s.ext g).size

/-- Where the kernel puts a mapping: on pages that are not in use. -/
structure Fits (addr size : Nat) (s : State τ) : Prop where
  dvd : pageSize ∣ addr
  lt : addr < 2^64
  unused : ∀ a, addr ≤ a → a < addr + size → s.mapped a = false

/-- The next answer of the kernel, if it is asked for `size` bytes. -/
def AnswerFits (host : Host) (size : Nat) (s : State τ) : Prop :=
  ∀ addr, host.mmap s.mmapCalls = some addr → Fits addr size s

structure ExtentsOk (s : State τ) : Prop where
  freed_le : ∀ g ∈ s.freed, g ≤ s.exts
  dvd_addr : ∀ {g}, s.Live g → pageSize ∣ (s.ext g).addr
  dvd_size : ∀ {g}, s.Live g → pageSize ∣ (s.ext g).size
  mapped : ∀ {g a}, s.Holds g a → s.mapped a = true
  apart : ∀ {g h a}, s.Holds g a → s.Holds h a → g = h

theorem ExtentsOk.start : ExtentsOk (State.start τ) where
  freed_le := fun _ h => nomatch h
  dvd_addr := fun h => absurd h.2.1 (Nat.not_le.mpr h.1)
  dvd_size := fun h => absurd h.2.1 (Nat.not_le.mpr h.1)
  mapped := fun h => absurd h.1.2.1 (Nat.not_le.mpr h.1.1)
  apart := fun h => absurd h.1.2.1 (Nat.not_le.mpr h.1.1)

/-! ## Mappings -/

/-- The state after `mmap` has given `size` bytes at `addr`. -/
def State.withMapping (s : State τ) (addr size : Nat) : State τ :=
  { s with
    mmapCalls := s.mmapCalls + 1
    mapped := fun a => if addr ≤ a ∧ a < addr + size then true else s.mapped a }

theorem withMapping_mapped_of_mapped {s : State τ} {addr size a : Nat} (h : s.mapped a = true) :
    (s.withMapping addr size).mapped a = true := by
  dsimp only [State.withMapping]
  split
  · rfl
  · exact h

theorem mmap_cases (host : Host) (size : Nat) (s : State τ) :
    (size = 0 ∨ host.mmap s.mmapCalls = none) ∧
      mmap host size s = (none, { s with mmapCalls := s.mmapCalls + 1 }) ∨
    ∃ addr, size ≠ 0 ∧ host.mmap s.mmapCalls = some addr ∧
      mmap host size s = (some addr, s.withMapping addr size) := by
  by_cases h0 : size = 0
  · exact .inl ⟨.inl h0, by rw [mmap, if_pos h0, mapAt]⟩
  · rw [mmap, if_neg h0]
    cases host.mmap s.mmapCalls with
    | none => exact .inl ⟨.inr rfl, rfl⟩
    | some addr => exact .inr ⟨addr, h0, rfl, rfl⟩

/-- What is mapped may change outside the extents. -/
theorem ExtentsOk.keep {s s' : State τ} (h : ExtentsOk s)
    (hext : ∀ g, (s'.ext g).addr = (s.ext g).addr ∧ (s'.ext g).size = (s.ext g).size) (hexts : s'.exts = s.exts)
    (hfreed : s'.freed = s.freed) (hmap : ∀ {g a}, s.Holds g a → s'.mapped a = true) : ExtentsOk s' := by
  have hlive : ∀ {g}, s'.Live g → s.Live g := by
    intro g hg
    rw [State.Live, hexts, hfreed] at hg
    exact hg
  have hholds : ∀ {g a}, s'.Holds g a → s.Holds g a := by
    intro g a hg
    rw [State.Holds, (hext g).1, (hext g).2] at hg
    exact ⟨hlive hg.1, hg.2⟩
  exact
    { freed_le := by rw [hfreed, hexts]; exact h.freed_le
      dvd_addr := fun {g} hg => (hext g).1 ▸ h.dvd_addr (hlive hg)
      dvd_size := fun {g} hg => (hext g).2 ▸ h.dvd_size (hlive hg)
      mapped := fun hg => hmap (hholds hg)
      apart := fun hg hg' => h.apart (hholds hg) (hholds hg') }

theorem ExtentsOk.mmap {s : State τ} (h : ExtentsOk s) (host : Host) (size : Nat) :
    ExtentsOk (mmap host size s).2 := by
  obtain ⟨-, he⟩ | ⟨addr, -, -, he⟩ := mmap_cases host size s <;> rw [he]
  · exact h.keep (fun _ => ⟨rfl, rfl⟩) rfl rfl h.mapped
  · exact h.keep (fun _ => ⟨rfl, rfl⟩) rfl rfl fun hg => withMapping_mapped_of_mapped (h.mapped hg)

/-! ## `extent_alloc` and `extent_free` -/

/-- The state after `extent_alloc` was given memory at `addr`. -/
def State.withExtent (s : State τ) (pages addr : Nat) : State τ :=
  { s with
    mmapCalls := s.mmapCalls + 1
    mapped := fun a => if addr ≤ a ∧ a < addr + extentBytes pages then true else s.mapped a
    exts := s.exts + 1
    ext := Function.update s.ext (s.exts + 1)
      { zeroExtent with addr := addr, size := extentBytes pages, usize := extentBytes pages }
    rtree := rtreeSet addr (s.exts + 1) pages s.rtree }

theorem extentAlloc_cases (host : Host) (pages : Nat) (s : State τ) :
    (extentBytes pages = 0 ∨ host.mmap s.mmapCalls = none) ∧
      extentAlloc host pages s = (0, { s with mmapCalls := s.mmapCalls + 1 }) ∨
    ∃ addr, extentBytes pages ≠ 0 ∧ host.mmap s.mmapCalls = some addr ∧
      extentAlloc host pages s = (s.exts + 1, s.withExtent pages addr) := by
  obtain ⟨hno, he⟩ | ⟨addr, h0, ha, he⟩ := mmap_cases host (extentBytes pages) s
  · exact .inl ⟨hno, by rw [extentAlloc, he, newExtent]⟩
  · exact .inr ⟨addr, h0, ha, by rw [extentAlloc, he]; rfl⟩

section withExtent
variable {s : State τ} {pages addr g a : Nat}

theorem withExtent_ext_self : (s.withExtent pages addr).ext (s.exts + 1) =
    { zeroExtent with addr := addr, size := extentBytes pages, usize := extentBytes pages } :=
  Function.update_self ..

theorem withExtent_ext_of_ne (h : g ≠ s.exts + 1) : (s.withExtent pages addr).ext g = s.ext g :=
  Function.update_of_ne h ..

theorem ExtentsOk.withExtent_live (h : ExtentsOk s) :
    (s.withExtent pages addr).Live g ↔ g = s.exts + 1 ∨ s.Live g := by
  have hnew : s.exts + 1 ∉ s.freed := fun hm => by have := h.freed_le _ hm; omega
  constructor
  · rintro ⟨h1, h2, h3⟩
    rcases Nat.lt_or_eq_of_le h2 with hlt | rfl
    · exact .inr ⟨h1, Nat.lt_succ_iff.mp hlt, h3⟩
    · exact .inl rfl
  · rintro (rfl | ⟨h1, h2, h3⟩)
    · exact ⟨Nat.succ_pos _, Nat.le_refl _, hnew⟩
    · exact ⟨h1, Nat.le_succ_of_le h2, h3⟩

theorem ExtentsOk.withExtent_holds (h : ExtentsOk s) :
    (s.withExtent pages addr).Holds g a ↔
      g = s.exts + 1 ∧ addr ≤ a ∧ a < addr + extentBytes pages ∨ s.Holds g a := by
  rw [State.Holds, h.withExtent_live]
  constructor
  · rintro ⟨rfl | hg, hmem⟩
    · rw [withExtent_ext_self] at hmem
      exact .inl ⟨rfl, hmem⟩
    · rw [withExtent_ext_of_ne (by have := hg.2.1; omega)] at hmem
      exact .inr ⟨hg, hmem⟩
  · rintro (⟨rfl, hmem⟩ | ⟨hg, hmem⟩)
    · rw [withExtent_ext_self]
      exact ⟨.inl rfl, hmem⟩
    · rw [withExtent_ext_of_ne (by have := hg.2.1; omega)]
      exact ⟨.inr hg, hmem⟩

theorem ExtentsOk.withExtent (h : ExtentsOk s) (hfit : Fits addr (extentBytes pages) s) :
    ExtentsOk (s.withExtent pages addr) where
  freed_le := fun g hg => Nat.le_succ_of_le (h.freed_le g hg)
  dvd_addr := by
    intro g hg
    rcases h.withExtent_live.mp hg with rfl | hg
    · rw [withExtent_ext_self]
      exact hfit.dvd
    · rw [withExtent_ext_of_ne (by have := hg.2.1; omega)]
      exact h.dvd_addr hg
  dvd_size := by
    intro g hg
    rcases h.withExtent_live.mp hg with rfl | hg
    · rw [withExtent_ext_self]
      exact dvd_extentBytes pages
    · rw [withExtent_ext_of_ne (by have := hg.2.1; omega)]
      exact h.dvd_size hg
  mapped := by
    intro g a hg
    dsimp only [State.withExtent]
    rcases h.withExtent_holds.mp hg with ⟨-, hmem⟩ | hg
    · exact if_pos hmem
    · split
      · rfl
      · exact h.mapped hg
  apart := by
    -- the memory of a live extent is in use, so the kernel did not put the new one there
    have hnew : ∀ {g a}, s.Holds g a → ¬ (addr ≤ a ∧ a < addr + extentBytes pages) := by
      intro g a hg hmem
      have := hfit.unused a hmem.1 hmem.2
      simp [h.mapped hg] at this
    intro g g' a hg hg'
    rcases h.withExtent_holds.mp hg with ⟨rfl, hmem⟩ | hg
    · rcases h.withExtent_holds.mp hg' with ⟨rfl, -⟩ | hg'
      · rfl
      · exact absurd hmem (hnew hg')
    · rcases h.withExtent_holds.mp hg' with ⟨rfl, hmem⟩ | hg'
      · exact absurd hmem (hnew hg)
      · exact h.apart hg hg'

end withExtent

theorem ExtentsOk.extentAlloc {s : State τ} (h : ExtentsOk s) (host : Host) (pages : Nat)
    (hfit : AnswerFits host (extentBytes pages) s) : ExtentsOk (extentAlloc host pages s).2 := by
  obtain ⟨-, he⟩ | ⟨addr, -, ha, he⟩ := extentAlloc_cases host pages s <;> rw [he]
  · exact h.keep (fun _ => ⟨rfl, rfl⟩) rfl rfl h.mapped
  · exact h.withExtent (hfit addr ha)

/-- The block is where the kernel put the extent. -/
theorem largeAlloc_cases (host : Host) (s : State τ) (x : Nat) :
    (extentBytes (largePages x) = 0 ∨ host.mmap s.mmapCalls = none) ∧
      largeAlloc host x s = (none, { s with mmapCalls := s.mmapCalls + 1 }) ∨
    ∃ addr, extentBytes (largePages x) ≠ 0 ∧ host.mmap s.mmapCalls = some addr ∧
      largeAlloc host x s = (some addr,
        (s.withExtent (largePages x) addr).modifyExt (s.exts + 1) ({ · with usize := x })) := by
  obtain ⟨hno, he⟩ | ⟨addr, h0, ha, he⟩ := extentAlloc_cases host (largePages x) s
  · exact .inl ⟨hno, by simp only [largeAlloc, he, if_true]⟩
  · refine .inr ⟨addr, h0, ha, ?_⟩
    simp only [largeAlloc, he, if_neg (Nat.succ_ne_zero _), modifyExt_self, withExtent_ext_self]

section extentFree
variable {s : State τ} {g k a : Nat}

theorem extentFree_live : (extentFree g s).Live k ↔ s.Live k ∧ k ≠ g := by
  simp only [State.Live, extentFree, munmap, List.mem_cons, not_or]
  exact ⟨fun ⟨h1, h2, h3, h4⟩ => ⟨⟨h1, h2, h4⟩, h3⟩, fun ⟨⟨h1, h2, h4⟩, h3⟩ => ⟨h1, h2, h3, h4⟩⟩

theorem extentFree_holds : (extentFree g s).Holds k a ↔ s.Holds k a ∧ k ≠ g := by
  rw [State.Holds, extentFree_live]
  exact ⟨fun ⟨⟨h1, h2⟩, h3⟩ => ⟨⟨h1, h3⟩, h2⟩, fun ⟨⟨h1, h3⟩, h2⟩ => ⟨⟨h1, h2⟩, h3⟩⟩

theorem ExtentsOk.extentFree (h : ExtentsOk s) (hg : s.Live g) : ExtentsOk (extentFree g s) where
  freed_le := by
    intro k hk
    rcases List.mem_cons.mp hk with rfl | hk
    · exact hg.2.1
    · exact h.freed_le k hk
  dvd_addr := fun hk => h.dvd_addr (extentFree_live.mp hk).1
  dvd_size := fun hk => h.dvd_size (extentFree_live.mp hk).1
  mapped := by
    intro k a hk
    obtain ⟨hk, hne⟩ := extentFree_holds.mp hk
    -- the bytes of another extent are not unmapped
    have hout : ¬ ((s.ext g).addr ≤ a ∧ a < (s.ext g).addr + (s.ext g).size) :=
      fun hmem => hne (h.apart hk ⟨hg, hmem⟩)
    exact (if_neg hout).trans (h.mapped hk)
  apart := fun hk hk' => h.apart (extentFree_holds.mp hk).1 (extentFree_holds.mp hk').1

end extentFree

end MyMalloc.Jemalloc
