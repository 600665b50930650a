import MyMalloc.Classic.Jemalloc.Extents
import MyMalloc.Lib.Region

/- Huge blocks of the jemalloc-like allocator.

   A huge block is a mapping of its own without any record of its size. `je_free`
   takes a pointer for huge if the rtree has no entry for it, and unmaps the
   constant 2 MiB; `je_usable_size` gives the same constant, and `je_realloc` copies
   that much. Both are right for a request of exactly 2 MiB only. And because the
   rtree has one entry for all pages 256 MiB apart, the lookup of a huge block may
   give another extent, which is then freed in its place. `huge_round_trip_iff` puts
   this together for every state that is reached, every huge block held in it and
   every new size. -/
namespace MyMalloc.Jemalloc

variable {τ : Type} [DecidableEq τ]

/-! ## Reallocation with the contents of memory -/

def memcpy (dst src len : Nat) (mem : Nat → UInt8) : Nat → UInt8 :=
  fun a => if dst ≤ a ∧ a < dst + len then mem (src + (a - dst)) else mem a

/-- A new mapping reads as zeros: so does, after a call, what was not mapped before it. -/
def zeroFill (s : State τ) (mem : Nat → UInt8) : Nat → UInt8 := fun a => if s.mapped a then mem a else 0

/-- `je_realloc` of a pointer that is not null, on the contents of memory. -/
def jeReallocMem (host : Host) (t : τ) (ptr size : Nat) (s : State τ) (mem : Nat → UInt8) :
    Option (Option Nat × State τ × (Nat → UInt8)) :=
  if size = 0 then (jeFree t ptr s).map (fun s => (none, s, mem))
  else if size ≤ jeUsableSize ptr s then some (some ptr, s, mem)
  else (jeMalloc host t size s).bind fun r =>
    match r.1 with
    | none => some (none, r.2, zeroFill s mem)
    | some np =>
      let len := min (jeUsableSize ptr s) size
      if ∀ i < len, r.2.mapped (ptr + i) = true ∧ r.2.mapped (np + i) = true then
        (jeFree t ptr r.2).map fun s' => (some np, s', memcpy np ptr len (zeroFill s mem))
      else none

section moving
variable {host : Host} {t : τ} {ptr size np : Nat} {s s₁ s₂ : State τ} (mem : Nat → UInt8)

theorem jeReallocMem_refused (h0 : size ≠ 0) (hgrow : jeUsableSize ptr s < size)
    (hm : jeMalloc host t size s = some (none, s₁)) :
    jeReallocMem host t ptr size s mem = some (none, s₁, zeroFill s mem) := by
  rw [jeReallocMem, if_neg h0, if_neg (Nat.not_le.mpr hgrow), hm, Option.bind_some]

theorem jeReallocMem_moved (h0 : size ≠ 0) (hgrow : jeUsableSize ptr s < size)
    (hm : jeMalloc host t size s = some (some np, s₁))
    (hcopy : ∀ i < jeUsableSize ptr s, s₁.mapped (ptr + i) = true ∧ s₁.mapped (np + i) = true)
    (hf : jeFree t ptr s₁ = some s₂) :
    jeReallocMem host t ptr size s mem =
      some (some np, s₂, memcpy np ptr (jeUsableSize ptr s) (zeroFill s mem)) := by
  rw [jeReallocMem, if_neg h0, if_neg (Nat.not_le.mpr hgrow), hm, Option.bind_some]
  simp only [Nat.min_eq_left (Nat.le_of_lt hgrow), if_pos hcopy, hf, Option.map_some]

end moving

/-! ## Runs -/

/-- A huge block: the pointer and the size that was asked for. -/
structure HugeRef where
  ptr : Nat
  size : Nat
  deriving DecidableEq

/-- The region `je_malloc` mapped for it. -/
def HugeRef.region (b : HugeRef) : Region := ⟨b.ptr, hugeBytes b.size⟩

/-- The states that are reached, with the huge blocks held. Extents come from `je_large_alloc`
and are freed once; `je_realloc` is made of these calls and of writes. -/
inductive HugeReached (host : Host) : State τ → List HugeRef → Prop where
  | start : HugeReached host (State.start τ) []
  | large {s : State τ} {held : List HugeRef} (h : HugeReached host s held) (size : Nat) (hsize : size < 2^64)
      (fits : AnswerFits host (extentBytes (largePages size)) s) : HugeReached host (largeAlloc host size s).2 held
  | extentFree {s : State τ} {held : List HugeRef} (h : HugeReached host s held) (g : Nat) (live : s.Live g) :
      HugeReached host (extentFree g s) held
  | malloc {s s' : State τ} {held : List HugeRef} {r : Option Nat} (h : HugeReached host s held) (t : τ) (size : Nat)
      (hsize : hugeThreshold ≤ size ∧ size < 2^64) (fits : AnswerFits host (hugeBytes size) s)
      (exec : jeMalloc host t size s = some (r, s')) :
      HugeReached host s' (r.toList.map (HugeRef.mk · size) ++ held)
  | free {s s' : State τ} {held : List HugeRef} (h : HugeReached host s held) (t : τ) (b : HugeRef) (hb : b ∈ held)
      (exec : jeFree t b.ptr s = some s') : HugeReached host s' (held.erase b)

/-- Huge blocks are mapped and lie apart from the extents and from each other. An entry of the
rtree leads to a live extent one of whose pages it stands for. There are no runs. -/
structure HugeOk (s : State τ) (held : List HugeRef) : Prop where
  extents : ExtentsOk s
  noRuns : ∀ g, (s.ext g).runNslots = 0
  entries : ∀ a, s.rtreeGet a ≠ 0 → s.Live (s.rtreeGet a) ∧
    Writes (s.ext (s.rtreeGet a)).addr ((s.ext (s.rtreeGet a)).size / pageSize) a
  sizes : ∀ b ∈ held, hugeThreshold ≤ b.size ∧ b.size ≤ hugeBytes b.size ∧ pageSize ∣ b.ptr ∧ b.ptr < 2^64
  mapped : ∀ b ∈ held, ∀ a, b.region.Has a → s.mapped a = true
  outside : ∀ b ∈ held, ∀ g a, s.Holds g a → ¬ b.region.Has a
  apart : held.Pairwise fun b c => b.region.Apart c.region

omit [DecidableEq τ] in
theorem HugeOk.start : HugeOk (State.start τ) [] where
  extents := .start
  noRuns := fun _ => rfl
  entries := fun _ h => absurd rfl h
  sizes := fun _ h => nomatch h
  mapped := fun _ h => nomatch h
  outside := fun _ h => nomatch h
  apart := .nil

variable {s s' : State τ} {held : List HugeRef} {b : HugeRef}

omit [DecidableEq τ] in
theorem HugeOk.grow (h : HugeOk s held)
    (hext : ∀ g, (s'.ext g).addr = (s.ext g).addr ∧ (s'.ext g).size = (s.ext g).size)
    (hruns : ∀ g, (s'.ext g).runNslots = (s.ext g).runNslots) (hexts : s'.exts = s.exts)
    (hfreed : s'.freed = s.freed) (hrtree : s'.rtree = s.rtree)
    (hmap : ∀ a, s.mapped a = true → s'.mapped a = true) : HugeOk s' held where
  extents := h.extents.keep hext hexts hfreed fun hg => hmap _ (h.extents.mapped hg)
  noRuns := fun g => (hruns g).trans (h.noRuns g)
  entries := by
    intro a ha
    rw [State.rtreeGet, hrtree] at ha ⊢
    rw [State.Live, hexts, hfreed, (hext _).1, (hext _).2]
    exact h.entries a ha
  sizes := h.sizes
  mapped := fun b hb a ha => hmap a (h.mapped b hb a ha)
  outside := by
    intro b hb g a hg
    rw [State.Holds, State.Live, hexts, hfreed, (hext _).1, (hext _).2] at hg
    exact h.outside b hb g a hg
  apart := h.apart

/-! ### Huge allocation -/

theorem hugeBytes_le {n : Nat} (hn : n < 2^64) (h0 : hugeBytes n ≠ 0) : n ≤ hugeBytes n := by
  have hpage : pageSize = 4096 := rfl
  rw [hugeBytes, hpage, show (4096 - 1 : Nat) = 2^12 - 1 from rfl,
    maskOff_two_pow (Nat.mod_lt _ (by decide)) (by omega)] at h0 ⊢
  omega

omit [DecidableEq τ] in
theorem HugeOk.region_pos (h : HugeOk s held) (hb : b ∈ held) : 0 < b.region.size := by
  have h1 := h.sizes b hb
  have h2 : hugeThreshold = 2097152 := rfl
  dsimp only [HugeRef.region]
  omega

omit [DecidableEq τ] in
theorem HugeOk.map {addr n : Nat} (h : HugeOk s held) (hn : hugeThreshold ≤ n ∧ n ≤ hugeBytes n)
    (hfit : Fits addr (hugeBytes n) s) :
    HugeOk (s.withMapping addr (hugeBytes n)) (⟨addr, n⟩ :: held) := by
  -- what is mapped lies outside the new region
  have hout : ∀ a, s.mapped a = true → ¬ (HugeRef.mk addr n).region.Has a := by
    intro a ha hmem
    have := hfit.unused a hmem.1 hmem.2
    simp [ha] at this
  have hold : HugeOk (s.withMapping addr (hugeBytes n)) held :=
    h.grow (fun _ => ⟨rfl, rfl⟩) (fun _ => rfl) rfl rfl rfl fun _ => withMapping_mapped_of_mapped
  refine ⟨hold.extents, hold.noRuns, hold.entries, ?_, ?_, ?_, ?_⟩
  · intro b hb
    rcases List.mem_cons.mp hb with rfl | hb
    · exact ⟨hn.1, hn.2, hfit.dvd, hfit.lt⟩
    · exact h.sizes b hb
  · intro b hb a ha
    rcases List.mem_cons.mp hb with rfl | hb
    · exact if_pos ha
    · exact hold.mapped b hb a ha
  · intro b hb g a hg
    rcases List.mem_cons.mp hb with rfl | hb
    · exact hout a (h.extents.mapped hg)
    · exact hold.outside b hb g a hg
  · refine List.pairwise_cons.mpr ⟨fun c hc => ?_, h.apart⟩
    have hpos : 0 < (HugeRef.mk addr n).region.size := by
      have : hugeThreshold = 2097152 := rfl
      dsimp only [HugeRef.region]
      omega
    exact Region.apart_of_disjoint hpos (h.region_pos hc) fun a ha hc' => hout a (h.mapped c hc a hc') ha

theorem jeInit_frame (t : τ) (s : State τ) : (jeInit t s).ext = s.ext ∧ (jeInit t s).exts = s.exts ∧
    (jeInit t s).freed = s.freed ∧ (jeInit t s).rtree = s.rtree ∧ (jeInit t s).mapped = s.mapped := by
  rw [jeInit]
  split
  · exact ⟨rfl, rfl, rfl, rfl, rfl⟩
  · dsimp only
    split <;> exact ⟨rfl, rfl, rfl, rfl, rfl⟩

theorem HugeOk.init (h : HugeOk s held) (t : τ) : HugeOk (jeInit t s) held := by
  obtain ⟨h1, h2, h3, h4, h5⟩ := jeInit_frame t s
  exact h.grow (fun g => by rw [h1]; exact ⟨rfl, rfl⟩) (fun g => by rw [h1]) h2 h3 h4 fun a ha => by rwa [h5]

/-- A huge request: refused, or a region of its own where the kernel put it. -/
theorem jeMalloc_huge (host : Host) (t : τ) (s : State τ) {n : Nat} (hn : hugeThreshold ≤ n) :
    jeMalloc host t n s = some (none, { jeInit t s with mmapCalls := s.mmapCalls + 1 }) ∨
    ∃ addr, hugeBytes n ≠ 0 ∧ host.mmap s.mmapCalls = some addr ∧
      jeMalloc host t n s = some (some addr, (jeInit t s).withMapping addr (hugeBytes n)) := by
  have hhuge : hugeThreshold = 2097152 := rfl
  have he : jeMalloc host t n s = some (mmap host (hugeBytes n) (jeInit t s)) := by
    simp only [jeMalloc, if_neg (show ¬ n = 0 by omega), if_pos hn]
    rfl
  rw [he, ← jeInit_mmapCalls t s]
  obtain ⟨-, hm⟩ | ⟨addr, h0, ha, hm⟩ := mmap_cases host (hugeBytes n) (jeInit t s)
  · exact .inl (by rw [hm])
  · exact .inr ⟨addr, h0, ha, by rw [hm]⟩

theorem HugeOk.malloc {host : Host} {t : τ} {n : Nat} {r : Option Nat} (h : HugeOk s held)
    (hn : hugeThreshold ≤ n ∧ n < 2^64) (hfit : AnswerFits host (hugeBytes n) s)
    (exec : jeMalloc host t n s = some (r, s')) : HugeOk s' (r.toList.map (HugeRef.mk · n) ++ held) := by
  obtain he | ⟨addr, h0, ha, he⟩ := jeMalloc_huge host t s hn.1
  · obtain ⟨rfl, rfl⟩ := Prod.mk.inj (Option.some.inj (he.symm.trans exec))
    exact (h.init t).grow (fun _ => ⟨rfl, rfl⟩) (fun _ => rfl) rfl rfl rfl fun _ => id
  · obtain ⟨rfl, rfl⟩ := Prod.mk.inj (Option.some.inj (he.symm.trans exec))
    have hf := hfit addr ha
    exact (h.init t).map ⟨hn.1, hugeBytes_le hn.2 h0⟩ ⟨hf.dvd, hf.lt, (jeInit_frame t s).2.2.2.2 ▸ hf.unused⟩

/-! ### Extents -/

omit [DecidableEq τ] in
theorem largePages_bytes (size : Nat) : extentBytes (largePages size) / pageSize = largePages size := by
  have hpage : pageSize = 4096 := rfl
  have hlt : largePages size < 2^52 := by
    rw [largePages, hpage, Nat.shiftRight_eq_div_pow]
    omega
  rw [extentBytes_eq, hpage]
  omega

section
variable (h : HugeOk s held)
include h

omit [DecidableEq τ] in
theorem HugeOk.withExtent {addr pages : Nat} (hpages : extentBytes pages / pageSize = pages)
    (hfit : Fits addr (extentBytes pages) s) : HugeOk (s.withExtent pages addr) held where
  extents := h.extents.withExtent hfit
  noRuns := by
    intro g
    rcases eq_or_ne g (s.exts + 1) with rfl | hne
    · rw [withExtent_ext_self]
      rfl
    · rw [withExtent_ext_of_ne hne]
      exact h.noRuns g
  entries := by
    intro a ha
    by_cases hw : Writes addr pages a
    · have hget : (s.withExtent pages addr).rtreeGet a = s.exts + 1 := rtreeSet_of_writes _ _ hw
      rw [hget, withExtent_ext_self, h.extents.withExtent_live]
      exact ⟨.inl rfl, hpages.symm ▸ hw⟩
    · have hget : (s.withExtent pages addr).rtreeGet a = s.rtreeGet a := rtreeSet_of_not_writes _ _ hw
      rw [hget] at ha ⊢
      obtain ⟨hlive, hold⟩ := h.entries a ha
      rw [withExtent_ext_of_ne (by have := hlive.2.1; omega), h.extents.withExtent_live]
      exact ⟨.inr hlive, hold⟩
  sizes := h.sizes
  mapped := by
    intro b hb a ha
    dsimp only [State.withExtent]
    split
    · rfl
    · exact h.mapped b hb a ha
  outside := by
    intro b hb g a hg ha
    rcases h.extents.withExtent_holds.mp hg with ⟨-, hmem⟩ | hg
    · have := hfit.unused a hmem.1 hmem.2
      simp [h.mapped b hb a ha] at this
    · exact h.outside b hb g a hg ha
  apart := h.apart

omit [DecidableEq τ] in
theorem HugeOk.large {host : Host} {size : Nat}
    (hfit : AnswerFits host (extentBytes (largePages size)) s) : HugeOk (largeAlloc host size s).2 held := by
  obtain ⟨-, he⟩ | ⟨addr, -, ha, he⟩ := largeAlloc_cases host s size <;> rw [he]
  · exact h.grow (fun _ => ⟨rfl, rfl⟩) (fun _ => rfl) rfl rfl rfl fun _ => id
  · -- only the usable size of the new extent is written after that
    have hset : ∀ g, ((s.withExtent (largePages size) addr).modifyExt (s.exts + 1) ({ · with usize := size })).ext g =
        { (s.withExtent (largePages size) addr).ext g with
          usize := if g = s.exts + 1 then size else ((s.withExtent (largePages size) addr).ext g).usize } := by
      intro g
      rcases eq_or_ne g (s.exts + 1) with rfl | hne
      · rw [modifyExt_self, if_pos rfl]
      · rw [if_neg hne]
        exact Function.update_of_ne hne ..
    refine (h.withExtent (largePages_bytes size) (hfit addr ha)).grow (fun g => ?_) (fun g => ?_) rfl rfl rfl fun _ => id
    · rw [hset]
      exact ⟨rfl, rfl⟩
    · rw [hset]

omit [DecidableEq τ] in
theorem HugeOk.extentFree {g : Nat} (hg : s.Live g) : HugeOk (extentFree g s) held where
  extents := h.extents.extentFree hg
  noRuns := h.noRuns
  entries := by
    intro a ha
    by_cases hw : Writes (s.ext g).addr ((s.ext g).size / pageSize) a
    · exact absurd (rtreeSet_of_writes 0 s.rtree hw) ha
    · have hget : (Jemalloc.extentFree g s).rtreeGet a = s.rtreeGet a := rtreeSet_of_not_writes _ _ hw
      rw [hget] at ha ⊢
      obtain ⟨hlive, hold⟩ := h.entries a ha
      -- an entry of the extent itself would have been cleared
      have hne : s.rtreeGet a ≠ g := fun e => hw (e ▸ hold)
      exact ⟨extentFree_live.mpr ⟨hlive, hne⟩, hold⟩
  sizes := h.sizes
  mapped := by
    intro b hb a ha
    have hout : ¬ ((s.ext g).addr ≤ a ∧ a < (s.ext g).addr + (s.ext g).size) :=
      fun hmem => h.outside b hb g a ⟨hg, hmem⟩ ha
    exact (if_neg hout).trans (h.mapped b hb a ha)
  outside := fun b hb k a hk => h.outside b hb k a (extentFree_holds.mp hk).1
  apart := h.apart

/-! ### Freeing a huge block -/

omit [DecidableEq τ] in
theorem HugeOk.sublist {held' : List HugeRef} (hsub : held'.Sublist held) : HugeOk s held' :=
  ⟨h.extents, h.noRuns, h.entries, fun b hb => h.sizes b (hsub.mem hb), fun b hb => h.mapped b (hsub.mem hb),
    fun b hb => h.outside b (hsub.mem hb), h.apart.sublist hsub⟩

theorem HugeOk.jeFree_eq (hb : b ∈ held) (t : τ) :
    jeFree t b.ptr s =
      some (if s.rtreeGet b.ptr = 0 then munmap b.ptr hugeThreshold s
        else Jemalloc.extentFree (s.rtreeGet b.ptr) s) := by
  obtain ⟨-, -, hdvd, hlt⟩ := h.sizes b hb
  have hmask : maskOff b.ptr (pageSize - 1) = b.ptr := by
    have hpage : pageSize = 4096 := rfl
    rw [hpage] at hdvd
    rw [hpage, show (4096 - 1 : Nat) = 2^12 - 1 from rfl, maskOff_two_pow hlt (by omega)]
    omega
  rw [jeFree, hmask]
  split
  · rfl
  · rw [h.noRuns, if_neg (Nat.lt_irrefl 0)]

omit [DecidableEq τ] in
theorem HugeOk.has_of_lt (hb : b ∈ held) {a : Nat} (h1 : b.ptr ≤ a)
    (h2 : a < b.ptr + hugeThreshold) : b.region.Has a := by
  have := h.sizes b hb
  exact ⟨h1, by dsimp only [HugeRef.region]; omega⟩

omit [DecidableEq τ] in
theorem HugeOk.unmap (hb : b ∈ held) : HugeOk (munmap b.ptr hugeThreshold s) (held.erase b) := by
  have hpair : (b :: held.erase b).Pairwise fun b c => b.region.Apart c.region :=
    h.apart.perm (List.perm_cons_erase hb) fun hbc => Or.symm hbc
  have hmem : ∀ c ∈ held.erase b, c ∈ held := fun c hc => List.mem_of_mem_erase hc
  have hkeep : ∀ a, ¬ b.region.Has a → (munmap b.ptr hugeThreshold s).mapped a = s.mapped a :=
    fun a ha => if_neg fun hlt => ha (h.has_of_lt hb hlt.1 hlt.2)
  exact
    { extents := h.extents.keep (fun _ => ⟨rfl, rfl⟩) rfl rfl fun {g a} hg =>
        (hkeep a (h.outside b hb g a hg)).trans (h.extents.mapped hg)
      noRuns := h.noRuns
      entries := h.entries
      sizes := fun c hc => h.sizes c (hmem c hc)
      mapped := fun c hc a ha => by
        have hapart : b.region.Apart c.region := (List.pairwise_cons.mp hpair).1 c hc
        rw [hkeep a fun hba => hapart.not_has hba ha]
        exact h.mapped c (hmem c hc) a ha
      outside := fun c hc => h.outside c (hmem c hc)
      apart := (List.pairwise_cons.mp hpair).2 }

theorem HugeOk.free {t : τ} (hb : b ∈ held) (exec : jeFree t b.ptr s = some s') :
    HugeOk s' (held.erase b) := by
  rw [h.jeFree_eq hb] at exec
  obtain rfl := Option.some.inj exec
  split
  · exact h.unmap hb
  · rename_i hne
    exact (h.extentFree (h.entries _ hne).1).sublist List.erase_sublist

end

theorem HugeReached.ok {host : Host} (h : HugeReached host s held) : HugeOk s held := by
  induction h with
  | start => exact .start
  | large _ size _ fits ih => exact ih.large fits
  | extentFree _ g live ih => exact ih.extentFree live
  | malloc _ t size hsize fits exec ih => exact ih.malloc hsize fits exec
  | free _ t b hb exec ih => exact ih.free hb exec

/-! ## The round trip -/

/-- `je_free` of the block unmaps the region `je_malloc` mapped for it, and nothing else. -/
def FreesExactly (t : τ) (b : HugeRef) (s : State τ) : Prop :=
  ∃ s', jeFree t b.ptr s = some s' ∧
    ∀ a, (b.region.Has a → s'.mapped a = false) ∧ (¬ b.region.Has a → s'.mapped a = s.mapped a)

/-- `je_realloc` to `m` bytes returns null with the block as it was, or a block of `m` bytes that
begins with the contents. -/
def ReallocsRight (host : Host) (t : τ) (b : HugeRef) (m : Nat) (s : State τ) : Prop :=
  ∀ mem, ∃ res s' mem', jeReallocMem host t b.ptr m s mem = some (res, s', mem') ∧
    (res = none → ∀ a, b.region.Has a → s'.mapped a = true ∧ mem' a = mem a) ∧
    (∀ q, res = some q → (∀ i < m, s'.mapped (q + i) = true) ∧ ∀ i < min b.size m, mem' (q + i) = mem (b.ptr + i))

theorem HugeOk.freesExactly_iff (h : HugeOk s held) (hb : b ∈ held) (t : τ) :
    FreesExactly t b s ↔ b.size = hugeThreshold ∧ s.rtreeGet b.ptr = 0 := by
  have hhuge : hugeThreshold = 2097152 := rfl
  obtain ⟨hsize, hbytes, -⟩ := h.sizes b hb
  constructor
  · rintro ⟨s', hf, hmap⟩
    rw [h.jeFree_eq hb] at hf
    obtain rfl := Option.some.inj hf
    by_cases h0 : s.rtreeGet b.ptr = 0
    · refine ⟨?_, h0⟩
      by_contra hne
      -- the byte after the first 2 MiB stays mapped
      have hin : b.region.Has (b.ptr + hugeThreshold) := by
        dsimp only [Region.Has, HugeRef.region]
        omega
      have hoff := (hmap _).1 hin
      rw [if_pos h0] at hoff
      simp [munmap, h.mapped b hb _ hin] at hoff
    · -- another extent is freed, and the block stays mapped
      have hin : b.region.Has b.ptr := h.has_of_lt hb (Nat.le_refl _) (by omega)
      have hoff := (hmap _).1 hin
      have hon := (h.extentFree (h.entries _ h0).1).mapped b hb _ hin
      rw [if_neg h0, hon] at hoff
      exact absurd hoff (by decide)
  · rintro ⟨hn, h0⟩
    refine ⟨_, h.jeFree_eq hb t, fun a => ?_⟩
    have hreg : b.region.Has a ↔ b.ptr ≤ a ∧ a < b.ptr + hugeThreshold := by
      have : hugeBytes hugeThreshold = hugeThreshold := by decide
      rw [Region.Has, HugeRef.region, hn, this]
    rw [if_pos h0, hreg]
    exact ⟨fun hin => if_pos hin, fun hout => if_neg hout⟩

/-- A block of 2 MiB that the rtree does not know is resized right. -/
theorem HugeOk.reallocsRight {host : Host} {m : Nat} (h : HugeOk s held) (hb : b ∈ held) (t : τ)
    (hn : b.size = hugeThreshold) (h0 : s.rtreeGet b.ptr = 0) (hm : m ≠ 0) (hm64 : m < 2^64)
    (hfit : AnswerFits host (hugeBytes m) s) : ReallocsRight host t b m s := by
  intro mem
  have hhuge : hugeThreshold = 2097152 := rfl
  have hin : ∀ i < hugeThreshold, s.mapped (b.ptr + i) = true :=
    fun i hi => h.mapped b hb _ (h.has_of_lt hb (by omega) (by omega))
  have husable : jeUsableSize b.ptr s = hugeThreshold := by rw [jeUsableSize, if_pos h0]
  by_cases hle : m ≤ hugeThreshold
  · refine ⟨some b.ptr, s, mem, by rw [jeReallocMem, if_neg hm, husable, if_pos hle], by simp, ?_⟩
    intro q hq
    obtain rfl := Option.some.inj hq
    exact ⟨fun i hi => hin i (by omega), fun _ _ => rfl⟩
  have hgrow : jeUsableSize b.ptr s < m := by rw [husable]; omega
  obtain he | ⟨addr, hbytes, ha, he⟩ := jeMalloc_huge host t s (show hugeThreshold ≤ m by omega)
  · refine ⟨none, _, _, jeReallocMem_refused mem hm hgrow he, fun _ a hreg => ?_, by simp⟩
    have hmap := h.mapped b hb a hreg
    exact ⟨(congrFun (jeInit_frame t s).2.2.2.2 a).trans hmap, if_pos hmap⟩
  · -- the new block and the old one lie apart
    have hok := h.malloc ⟨by omega, hm64⟩ hfit he
    have hb' : b ∈ (some addr).toList.map (HugeRef.mk · m) ++ held := List.mem_append_right _ hb
    have hapart : (HugeRef.mk addr m).region.Apart b.region := (List.pairwise_cons.mp hok.apart).1 b hb
    have hmle : m ≤ hugeBytes m := hugeBytes_le hm64 hbytes
    have hnew : ∀ i < m, (HugeRef.mk addr m).region.Has (addr + i) := by
      intro i hi
      dsimp only [Region.Has, HugeRef.region]
      omega
    have h0' : ((jeInit t s).withMapping addr (hugeBytes m)).rtreeGet b.ptr = 0 :=
      (congrFun (jeInit_frame t s).2.2.2.1 _).trans h0
    have hfree := hok.jeFree_eq hb' t
    rw [if_pos h0'] at hfree
    have hcopy : ∀ i < jeUsableSize b.ptr s, ((jeInit t s).withMapping addr (hugeBytes m)).mapped (b.ptr + i) = true ∧
        ((jeInit t s).withMapping addr (hugeBytes m)).mapped (addr + i) = true := by
      intro i hi
      exact ⟨hok.mapped b hb' _ (hok.has_of_lt hb' (by omega) (by omega)),
        hok.mapped _ List.mem_cons_self _ (hnew i (by omega))⟩
    refine ⟨some addr, _, _, jeReallocMem_moved mem hm hgrow he hcopy hfree, by simp, ?_⟩
    intro q hq
    obtain rfl := Option.some.inj hq
    constructor
    · intro i hi
      have hout : ¬ (b.ptr ≤ addr + i ∧ addr + i < b.ptr + hugeThreshold) :=
        fun hlt => hapart.not_has (hnew i hi) (h.has_of_lt hb hlt.1 hlt.2)
      exact (if_neg hout).trans (hok.mapped _ List.mem_cons_self _ (hnew i hi))
    · intro i hi
      rw [hn] at hi
      rw [memcpy, husable, if_pos (by omega), Nat.add_sub_cancel_left]
      exact if_pos (hin i (by omega))

/-- For a huge block held in a state that is reached, freeing unmaps exactly its region and
resizing to `m` bytes is right exactly if the block was requested with 2 MiB, the rtree has no
entry for it and `m` is not 0. -/
theorem huge_round_trip_iff (host : Host) (s : State τ) (held : List HugeRef) (hs : HugeReached host s held)
    (b : HugeRef) (hb : b ∈ held) (t : τ) (m : UInt64) (hfit : AnswerFits host (hugeBytes m.toNat) s) :
    FreesExactly t b s ∧ ReallocsRight host t b m.toNat s ↔
      b.size = hugeThreshold ∧ s.rtreeGet b.ptr = 0 ∧ m.toNat ≠ 0 := by
  have h := hs.ok
  rw [h.freesExactly_iff hb]
  constructor
  · rintro ⟨⟨hn, h0⟩, hr⟩
    refine ⟨hn, h0, fun hm => ?_⟩
    -- a new size of 0 frees the block and returns null
    obtain ⟨res, s', mem', he, hnull, -⟩ := hr fun _ => 0
    rw [jeReallocMem, if_pos hm, h.jeFree_eq hb, if_pos h0] at he
    simp only [Option.map_some, Option.some.injEq, Prod.mk.injEq] at he
    obtain ⟨rfl, rfl, -⟩ := he
    have hpos : hugeThreshold = 2097152 := rfl
    have hmap := (hnull rfl b.ptr (h.has_of_lt hb (Nat.le_refl _) (by omega))).1
    simp [munmap, hpos] at hmap
  · rintro ⟨hn, h0, hm⟩
    exact ⟨⟨hn, h0⟩, h.reallocsRight hb t hn h0 hm m.toNat_lt hfit⟩

/-- A kernel that puts its mappings 4 GiB apart. -/
def wideHost : Host := ⟨fun k => some (4294967296 * (k + 1)), fun k => 16 * (k + 1), Host.spaced_pos⟩

/-- The state after one huge request. -/
def afterHuge (n : Nat) : State Nat := (jeInit 0 (State.start Nat)).withMapping 4294967296 (hugeBytes n)

theorem wideHost_fits (size : Nat) : AnswerFits wideHost size (State.start Nat) := by
  intro addr ha
  obtain rfl := Option.some.inj ha
  exact ⟨by decide, by decide, fun _ _ _ => rfl⟩

theorem wideHost_fits_second {n : Nat} (hn : hugeBytes n ≤ 4294967296) (size : Nat) :
    AnswerFits wideHost size (afterHuge n) := by
  intro addr ha
  obtain rfl : 8589934592 = addr := Option.some.inj ha
  exact ⟨by decide, by decide, fun a h1 _ => if_neg fun hlt => by omega⟩

theorem reached_afterHuge {n : Nat} (hn : hugeThreshold ≤ n ∧ n < 2^64)
    (exec : jeMalloc wideHost 0 n (State.start Nat) = some (some 4294967296, afterHuge n)) :
    HugeReached wideHost (afterHuge n) [⟨4294967296, n⟩] :=
  .malloc .start 0 n hn (wideHost_fits _) exec

/-- A block of exactly 2 MiB makes the round trip. -/
theorem huge_2MiB_round_trip :
    HugeReached wideHost (afterHuge 2097152) [⟨4294967296, 2097152⟩] ∧
      FreesExactly 0 ⟨4294967296, 2097152⟩ (afterHuge 2097152) ∧
      ReallocsRight wideHost 0 ⟨4294967296, 2097152⟩ (4194304 : UInt64).toNat (afterHuge 2097152) := by
  have hs := reached_afterHuge (n := 2097152) (by decide) rfl
  refine ⟨hs, ?_⟩
  exact (huge_round_trip_iff wideHost _ _ hs _ List.mem_cons_self 0 4194304
    (wideHost_fits_second (by decide) _)).mpr (by decide)

/-- Of 3 MiB, 1 MiB stays mapped after `je_free`, and is lost by `je_realloc`. -/
theorem huge_3MiB_lost :
    HugeReached wideHost (afterHuge 3145728) [⟨4294967296, 3145728⟩] ∧
      ¬ FreesExactly 0 ⟨4294967296, 3145728⟩ (afterHuge 3145728) ∧
      ¬ ReallocsRight wideHost 0 ⟨4294967296, 3145728⟩ 4194304 (afterHuge 3145728) := by
  have hs := reached_afterHuge (n := 3145728) (by decide) rfl
  have hok := hs.ok
  refine ⟨hs, fun hf => ?_, fun hr => ?_⟩
  · exact absurd ((hok.freesExactly_iff List.mem_cons_self 0).mp hf).1 (by decide)
  · obtain ⟨res, s', mem', he, -, hsome⟩ := hr fun _ => 1
    have hhuge : hugeThreshold = 2097152 := rfl
    have hb3 : hugeBytes 3145728 = 3145728 := by decide
    have hb4 : hugeBytes 4194304 = 4194304 := by decide
    -- the copy is 2 MiB long
    have hm : jeMalloc wideHost 0 4194304 (afterHuge 3145728) =
        some (some 8589934592, (jeInit 0 (afterHuge 3145728)).withMapping 8589934592 4194304) := rfl
    have hf : jeFree 0 4294967296 ((jeInit 0 (afterHuge 3145728)).withMapping 8589934592 4194304) =
        some (munmap 4294967296 hugeThreshold ((jeInit 0 (afterHuge 3145728)).withMapping 8589934592 4194304)) := rfl
    have hmoved := jeReallocMem_moved (fun _ => 1) (by decide) (by decide) hm (fun i hi => ?_) hf
    · rw [hmoved] at he
      simp only [Option.some.injEq, Prod.mk.injEq] at he
      obtain ⟨rfl, rfl, rfl⟩ := he
      have h1 := (hsome _ rfl).2 2097152 (by decide)
      have h0 : memcpy 8589934592 4294967296 (jeUsableSize 4294967296 (afterHuge 3145728))
          (zeroFill (afterHuge 3145728) fun _ => 1) (8589934592 + 2097152) = 0 := by decide
      rw [h0] at h1
      exact absurd h1 (by decide)
    · have hi : i < 2097152 := hi
      constructor
      · exact withMapping_mapped_of_mapped (if_pos (by omega))
      · exact if_pos (by omega)

end MyMalloc.Jemalloc
