import MyMalloc.Adaptive.Mapping
import MyMalloc.Adaptive.Runtime
import MyMalloc.Adaptive.System

/- The large-extent cache (`adaptive_services.cpp`): direct mappings that are kept
   after a release and reused for later requests of the streaming mode.

   No policy of the allocator caches a direct mapping, so this is a model of
   `MemoryServices` used directly: any number of threads call
   `allocate_direct_map` and `deallocate` with any requests and decisions, and
   their atomic steps interleave in any order.

   The cache looks at the size of a mapping only. A header that was placed for
   an alignment above 16 lies somewhere inside its mapping, and the room behind
   it can be much smaller than the mapping. `Fits` is the condition under which
   a reused extent has the room for its request. -/
namespace MyMalloc.Adaptive.Extents

variable {τ : Type}

/-! ## Calls -/

inductive ServiceCall where
  | allocate (req : AllocationRequest)
  | deallocate (g : Grant) (decision : ReleaseDecision)

/-- The extent at `hdr` has room for `usable` bytes behind its header. -/
def Fits (s : State τ) (hdr usable : Nat) : Prop :=
  userFromHeader hdr + usable ≤ (s.hdr hdr).regionBase + (s.hdr hdr).mappedSize

/-- Extents are reused only where they fit. -/
def ReuseFits (_t : τ) (a : Act) (s : State τ) : Prop :=
  match a with
  | .reuseExtent hdr _ usable => Fits s hdr usable
  | _ => True

/-! ## What is known about a block -/

/-- Where a block is: with its owner, registered or in no list while a call of thread `t` has it and
knows its header, in the cache, or kept for good. -/
inductive Role (τ : Type) where
  | none
  | owned
  | entered (t : τ) (h : Header)
  | held (t : τ) (h : Header)
  | cached
  | kept

namespace Role

/-- The list a block is in. -/
def place : Role τ → Option (Place τ)
  | .owned | .entered _ _ => some .registry
  | .cached => some .extents
  | _ => Option.none

def holder : Role τ → Option τ
  | .held t _ => some t
  | _ => Option.none

/-- What thread `t` knows: whether the block is registered, and its header. -/
def seenBy [DecidableEq τ] (t : τ) : Role τ → Option (Bool × Header)
  | .entered u h => if u = t then some (true, h) else Option.none
  | .held u h => if u = t then some (false, h) else Option.none
  | _ => Option.none

/-- The header its holder remembers. -/
def remembers : Role τ → Option Header
  | .entered _ h | .held _ h => some h
  | _ => Option.none

end Role

/-- A block with its own mapping, inside which its bytes lie. -/
structure Housed (s : State τ) (b : Nat) : Prop where
  pos : b ≠ 0
  direct : (s.hdr b).flags.pooled = false
  storage : (s.hdr b).storage = .directMap
  mapped : ∃ r ∈ s.mapped, r.base = (s.hdr b).regionBase ∧ r.size = (s.hdr b).mappedSize
  above : (s.hdr b).regionBase ≤ b
  fits : Fits s b (s.hdr b).usable

structure Inv (s : State τ) (γ : Nat → Role τ) : Prop where
  lists : ∃ L, Shelved 0 s.next s.head (fun b => (γ b).place) L ∧ Back s.prev 0 (L .registry) ∧
    s.extentCount = (L .extents).length
  count : s.extentCount ≤ largeExtentCacheLimit
  housed : ∀ b, γ b ≠ .none → Housed s b
  inj : ∀ b b', γ b ≠ .none → γ b' ≠ .none → (s.hdr b).regionBase = (s.hdr b').regionBase → b = b'
  header : ∀ b h, (γ b).remembers = some h → s.hdr b = h
  heldBy : ∀ b, s.heldBy b = (γ b).holder
  ledger : ∀ p g, s.ledger p = some g → ∃ b, p = userFromHeader b ∧ γ b = .owned

section
variable {s s' : State τ} {γ : Nat → Role τ} {b : Nat} {t : τ} {ρ : Role τ}

theorem Housed.congr (h : Housed s b) (hhdr : s'.hdr b = s.hdr b)
    (hmap : ∀ r ∈ s.mapped, r.base = (s.hdr b).regionBase → r ∈ s'.mapped) : Housed s' b := by
  obtain ⟨pos, direct, storage, ⟨r, hr, h1, h2⟩, above, fits⟩ := h
  have hr' := hmap r hr h1
  unfold Fits at fits
  rw [← hhdr] at direct storage h1 h2 above fits
  exact ⟨pos, direct, storage, ⟨r, hr', h1, h2⟩, above, fits⟩

theorem Inv.congr (hi : Inv s γ) (h1 : s'.hdr = s.hdr) (h2 : s'.next = s.next)
    (h3 : s'.prev = s.prev) (h4 : s'.head = s.head) (h5 : s'.extentCount = s.extentCount)
    (h6 : s'.mapped = s.mapped) (h7 : s'.heldBy = s.heldBy) (h8 : s'.ledger = s.ledger) :
    Inv s' γ := by
  obtain ⟨lists, count, housed, inj, header, heldBy, ledger⟩ := hi
  rw [← h2, ← h3, ← h4, ← h5] at lists
  rw [← h5] at count
  rw [← h7] at heldBy
  rw [← h8] at ledger
  have housed' := fun b hb => ((housed b hb).congr (by rw [h1]) (fun r hr _ => h6 ▸ hr) : Housed s' b)
  rw [← h1] at inj header
  exact ⟨lists, count, housed', inj, header, heldBy, ledger⟩

section change
variable (hi : Inv s γ)
    (lists : ∃ L, Shelved 0 s'.next s'.head (Function.update (fun a => (γ a).place) b ρ.place) L ∧
      Back s'.prev 0 (L .registry) ∧ s'.extentCount = (L .extents).length)
    (count : s'.extentCount ≤ largeExtentCacheLimit)
    (heldBy : s'.heldBy = Function.update s.heldBy b ρ.holder)
    (ledger : ∀ p g, s'.ledger p = some g → (∃ a, a ≠ b ∧ p = userFromHeader a ∧ γ a = .owned) ∨
      (p = userFromHeader b ∧ ρ = .owned))
include hi lists count heldBy ledger

/-- One block changes its role, and perhaps its header and its mapping. -/
theorem Inv.change
    (hdr : ∀ a, a ≠ b → γ a ≠ .none → s'.hdr a = s.hdr a)
    (mapped : ∀ a, a ≠ b → γ a ≠ .none → ∀ r ∈ s.mapped, r.base = (s.hdr a).regionBase → r ∈ s'.mapped)
    (housed : ρ ≠ .none → Housed s' b)
    (alone : ρ ≠ .none → ∀ a, a ≠ b → γ a ≠ .none → (s.hdr a).regionBase ≠ (s'.hdr b).regionBase)
    (remembers : ∀ h, ρ.remembers = some h → s'.hdr b = h) :
    Inv s' (Function.update γ b ρ) := by
  have hrole : ∀ a, Function.update γ b ρ a ≠ .none → (a = b ∧ ρ ≠ .none) ∨ (a ≠ b ∧ γ a ≠ .none) := by
    intro a ha
    by_cases e : a = b
    · subst e
      rw [Function.update_self] at ha
      exact .inl ⟨rfl, ha⟩
    · rw [Function.update_of_ne e] at ha
      exact .inr ⟨e, ha⟩
  refine ⟨?_, count, ?_, ?_, ?_, ?_, ?_⟩
  · have hplace : (fun a => (Function.update γ b ρ a).place) = _ := Function.comp_update Role.place γ b ρ
    rw [hplace]
    exact lists
  · intro a ha
    rcases hrole a ha with ⟨rfl, hρ⟩ | ⟨e, ha⟩
    · exact housed hρ
    · exact (hi.housed a ha).congr (hdr a e ha) (mapped a e ha)
  · intro a a' ha ha' e
    rcases hrole a ha with ⟨rfl, hρ⟩ | ⟨hab, hra⟩ <;> rcases hrole a' ha' with ⟨rfl, hρ'⟩ | ⟨hab', hra'⟩
    · rfl
    · rw [hdr a' hab' hra'] at e
      exact absurd e.symm (alone hρ a' hab' hra')
    · rw [hdr a hab hra] at e
      exact absurd e (alone hρ' a hab hra)
    · rw [hdr a hab hra, hdr a' hab' hra'] at e
      exact hi.inj a a' hra hra' e
  · intro a h hr
    by_cases e : a = b
    · subst e
      rw [Function.update_self] at hr
      exact remembers h hr
    · rw [Function.update_of_ne e] at hr
      rw [hdr a e (fun h0 => by rw [h0] at hr; cases hr)]
      exact hi.header a h hr
  · intro a
    rw [heldBy, funext hi.heldBy]
    exact (congrFun (Function.comp_update Role.holder γ b ρ) a).symm
  · intro p g hg
    rcases ledger p g hg with ⟨a, hne, hp, ha⟩ | ⟨hp, rfl⟩
    · exact ⟨a, hp, by rw [Function.update_of_ne hne]; exact ha⟩
    · exact ⟨b, hp, Function.update_self ..⟩

/-- A block changes its role, and perhaps its header, within its mapping. -/
theorem Inv.move (hb : γ b ≠ .none) {h : Header}
    (hhdr : s'.hdr = Function.update s.hdr b h) (hmap : s'.mapped = s.mapped)
    (direct : h.flags.pooled = false) (storage : h.storage = .directMap)
    (base : h.regionBase = (s.hdr b).regionBase) (size : h.mappedSize = (s.hdr b).mappedSize)
    (fits : Fits s b h.usable) (remembers : ∀ h', ρ.remembers = some h' → h = h') :
    Inv s' (Function.update γ b ρ) := by
  have hat : s'.hdr b = h := by rw [hhdr, Function.update_self]
  refine hi.change lists count heldBy ledger (fun a ha _ => by rw [hhdr, Function.update_of_ne ha])
    (fun a _ _ r hr _ => hmap ▸ hr) (fun _ => ?_) ?_ (fun h' e => hat.trans (remembers h' e))
  · obtain ⟨pos, -, -, ⟨r, hr, h1, h2⟩, above, -⟩ := hi.housed b hb
    unfold Fits at fits
    rw [← base, ← size] at fits
    rw [← base] at h1 above
    rw [← size] at h2
    subst hat
    exact ⟨pos, direct, storage, ⟨r, hmap ▸ hr, h1, h2⟩, above, fits⟩
  · intro _ a hne ha e
    rw [hat, base] at e
    exact hne (hi.inj a b ha hb e)

/-- A block changes its role and keeps its header. -/
theorem Inv.pass (hb : γ b ≠ .none) (hhdr : s'.hdr = s.hdr) (hmap : s'.mapped = s.mapped)
    (remembers : ∀ h, ρ.remembers = some h → s.hdr b = h) :
    Inv s' (Function.update γ b ρ) := by
  have hh := hi.housed b hb
  exact hi.move lists count heldBy ledger hb (by rw [hhdr, Function.update_eq_self]) hmap hh.direct hh.storage
    rfl rfl hh.fits remembers

end change

theorem place_same (h : ρ.place = (γ b).place) :
    Function.update (fun a => (γ a).place) b ρ.place = fun a => (γ a).place := by
  rw [h]
  exact Function.update_eq_self ..

theorem Inv.heldBy_same (hi : Inv s γ) (h : ρ.holder = (γ b).holder) :
    s.heldBy = Function.update s.heldBy b ρ.holder := by
  rw [h, ← hi.heldBy b, Function.update_eq_self]

theorem Inv.owned_ne (hi : Inv s γ) (hb : γ b ≠ .owned) : ∀ p g, s.ledger p = some g →
    (∃ a, a ≠ b ∧ p = userFromHeader a ∧ γ a = .owned) ∨ (p = userFromHeader b ∧ ρ = .owned) := by
  intro p g hg
  obtain ⟨a, hp, ha⟩ := hi.ledger p g hg
  refine .inl ⟨a, ?_, hp, ha⟩
  rintro rfl
  exact hb ha

theorem extents_ne_registry : (Place.extents : Place τ) ≠ .registry := nofun

/-! ## The steps of a call -/

theorem Inv.registryRemove [DecidableEq τ] (hi : Inv s γ) {h : Header} (hb : γ b = .entered t h) :
    Inv (registryRemove t b s) (Function.update γ b (.held t h)) := by
  have hhdr : s.hdr b = h := hi.header b h (by rw [hb]; rfl)
  obtain ⟨L, hs, hback, hcount⟩ := hi.lists
  have hmem : b ∈ L .registry := (hs.mem .registry b).mpr (by rw [hb]; rfl)
  obtain ⟨l, m, hl⟩ := List.append_of_mem hmem
  have hchain := hs.chain .registry
  rw [hl] at hback hchain
  refine hi.pass ⟨Function.update L .registry (l ++ m), hs.unlink hl hback.at_mem.1, ?_, ?_⟩ hi.count rfl
    (hi.owned_ne (by simp [hb])) (by simp [hb]) rfl rfl (fun h' e => hhdr.trans (Option.some.inj e))
  · rw [Function.update_self]
    exact .unlink hchain hback
  · rw [Function.update_of_ne extents_ne_registry]
    exact hcount

theorem Inv.registryInsert [DecidableEq τ] (hi : Inv s γ) {h : Header} (hb : γ b = .held t h) :
    Inv (registryInsert b s) (Function.update γ b (.entered t h)) := by
  have hne : γ b ≠ .none := by simp [hb]
  have hhdr : s.hdr b = h := hi.header b h (by rw [hb]; rfl)
  obtain ⟨L, hs, hback, hcount⟩ := hi.lists
  have hplace : (γ b).place = none := by rw [hb]; rfl
  have hout : b ∉ L .registry := hs.notMem_of_ne (by simp [hplace])
  refine hi.pass ⟨Function.update L .registry (b :: L .registry), hs.push hplace (hi.housed b hne).pos, ?_, ?_⟩
    hi.count rfl (hi.owned_ne (by simp [hb])) hne rfl rfl (fun h' e => hhdr.trans (Option.some.inj e))
  · rw [Function.update_self]
    exact .push (hs.chain .registry) hback hout
  · rw [Function.update_of_ne extents_ne_registry]
    exact hcount

/-- Storing an extent: refused, or the block is in the cache. -/
theorem Inv.pushLargeExtentCache [DecidableEq τ] (hi : Inv s γ) {h : Header} (hb : γ b = .held t h) :
    ((pushLargeExtentCache b s).1 = false ∧ (pushLargeExtentCache b s).2 = s) ∨
      ((pushLargeExtentCache b s).1 = true ∧
        Inv (pushLargeExtentCache b s).2 (Function.update γ b .cached)) := by
  have hne : γ b ≠ .none := by simp [hb]
  have hh := hi.housed b hne
  obtain ⟨L, hs, hback, hcount⟩ := hi.lists
  have hplace : (γ b).place = none := by rw [hb]; rfl
  unfold Adaptive.pushLargeExtentCache
  dsimp only
  split_ifs with h1 h2 h3
  · exact .inl ⟨rfl, rfl⟩
  · exact .inl ⟨rfl, rfl⟩
  · exact .inl ⟨rfl, rfl⟩
  · refine .inr ⟨rfl, hi.move ⟨Function.update L .extents (b :: L .extents), hs.push hplace hh.pos, ?_, ?_⟩
      (Nat.lt_of_not_le h3) rfl (hi.owned_ne (by simp [hb])) hne rfl rfl hh.direct hh.storage rfl rfl hh.fits
      (by simp [Role.remembers])⟩
    · rw [Function.update_of_ne extents_ne_registry.symm]
      exact hback.update (hs.notMem_of_ne (by simp [hplace]))
    · rw [Function.update_self, List.length_cons, hcount]

/-- The scan of the cache: the extent found is in the list, and `prev` is the one before it. -/
theorem findExtent_spec {needed fuel prev first p b : Nat} {l : List Nat}
    (hc : Chain 0 s.next first l) (hf : findExtent needed s fuel prev first = some (p, b)) :
    ∃ l₁ l₂, l = l₁ ++ b :: l₂ ∧ p = (l₁.getLast?).getD prev ∧
      needed ≤ (s.hdr b).mappedSize ∧ (s.hdr b).mappedSize ≤ needed * 2 := by
  induction fuel generalizing prev first l with
  | zero => cases hf
  | succ fuel ih =>
    unfold findExtent at hf
    split at hf
    · cases hf
    next hne =>
      obtain ⟨l', rfl, -⟩ := hc.exists_cons hne
      split at hf
      next hsize =>
        obtain ⟨rfl, rfl⟩ : prev = p ∧ first = b := by simpa using hf
        exact ⟨[], l', rfl, rfl, hsize⟩
      next =>
        obtain ⟨l₁, l₂, rfl, hp, hsize⟩ := ih hc.2.2 hf
        refine ⟨first :: l₁, l₂, rfl, ?_, hsize⟩
        rw [hp]
        cases l₁ <;> simp [List.getLast?_cons]

variable (hi : Inv s γ)
include hi

/-- Taking an extent: none, or one of the cache, which then is in the hands of `t` alone. -/
theorem Inv.popLargeExtentCache [DecidableEq τ] (t : τ) (needed : Nat) :
    popLargeExtentCache t needed s = (0, s) ∨
      (γ (popLargeExtentCache t needed s).1 = .cached ∧
        Inv (popLargeExtentCache t needed s).2 (Function.update γ (popLargeExtentCache t needed s).1
          (.held t (s.hdr (popLargeExtentCache t needed s).1)))) := by
  obtain ⟨L, hs, hback, hcount⟩ := hi.lists
  unfold Adaptive.popLargeExtentCache
  split
  · exact .inl rfl
  cases hf : findExtent needed s (largeExtentCacheLimit + 1) 0 (s.head .extents) with
  | none => exact .inl rfl
  | some found =>
    obtain ⟨p, b⟩ := found
    dsimp only
    obtain ⟨l₁, l₂, hl, hp, -⟩ := findExtent_spec (hs.chain .extents) hf
    have hplace : (γ b).place = some .extents := (hs.mem .extents b).mp (by simp [hl])
    have hcached : γ b = .cached := by
      cases h : γ b <;> rw [h] at hplace <;> first | rfl | cases hplace
    have hunlink := hs.unlink hl (show Function.const Nat p b = _ from hp)
    refine .inr ⟨hcached, hi.pass ⟨Function.update L .extents (l₁ ++ l₂), ?_, ?_, ?_⟩ ?_ rfl
      (hi.owned_ne (by simp [hcached])) (by simp [hcached]) rfl rfl (fun h' e => Option.some.inj e)⟩
    · -- the head moves only when the first extent is taken
      have hhead : (if p = 0 then Function.update s.head .extents (s.next b) else s.head) =
          Function.update s.head .extents (unlinkHead 0 s.next (fun _ => p) (s.head .extents) b) := by
        unfold unlinkHead
        by_cases h0 : p = 0
        · have hc := hs.chain .extents
          rw [hl] at hc
          have hfirst : s.head .extents = b := hc.first (hp ▸ h0)
          rw [if_pos h0, if_pos ⟨h0, hfirst⟩]
        · rw [if_neg h0, if_neg (fun h => h0 h.1), Function.update_eq_self]
      dsimp only
      rw [hhead]
      exact hunlink
    · rw [Function.update_of_ne extents_ne_registry.symm]
      exact hback.update (hs.notMem_of_ne (by simp [hplace]))
    · rw [Function.update_self]
      simp only [hcount, hl, List.length_append, List.length_cons]
      omega
    · have := hi.count
      dsimp only
      omega

/-- The header of a reused extent. -/
def reusedHeader (host : Host τ) (h : Header) (req : AllocationRequest) (usable epoch : Nat) : Header :=
  { h with
    magic := adaptiveMagic, storage := .directMap, modeId := req.mode,
    flags := ⟨false, false, false⟩, configVersion := host.cfg.version, requested := req.size,
    usable := usable, ownerPage := 0, ownerThread := req.threadId, allocEpoch := epoch,
    debugCookie := 0 }

theorem Inv.reuseExtent (host : Host τ) {h : Header} (hb : γ b = .held t h)
    (req : AllocationRequest) {usable : Nat} (hfit : Fits s b usable) :
    Inv (reuseExtent host b req usable s)
      (Function.update γ b (.held t (reusedHeader host h req usable ((s.epoch + 1) % 2^64)))) := by
  have hhdr : s.hdr b = h := hi.header b h (by rw [hb]; rfl)
  obtain ⟨L, hs, hback, hcount⟩ := hi.lists
  have hplace : (γ b).place = none := by rw [hb]; rfl
  refine hi.move (h := reusedHeader host (s.hdr b) req usable ((s.epoch + 1) % 2^64))
    ⟨L, ?_, hback.update (hs.notMem_of_ne (by simp [hplace])), hcount⟩ hi.count (hi.heldBy_same (by rw [hb]; rfl))
    (hi.owned_ne (by simp [hb])) (by simp [hb]) rfl rfl rfl rfl rfl rfl hfit (fun h' e => ?_)
  · rw [place_same (by rw [hb]; rfl)]
    exact hs.setNext hplace
  · rw [hhdr]
    exact Option.some.inj e

theorem Inv.enterQuarantine {h : Header} (hb : γ b = .held t h) :
    Inv (enterQuarantine b s) (Function.update γ b .kept) := by
  have hne : γ b ≠ .none := by simp [hb]
  have hh := hi.housed b hne
  obtain ⟨L, hs, hback, hcount⟩ := hi.lists
  refine hi.move ⟨L, ?_, hback, hcount⟩ hi.count rfl (hi.owned_ne (by simp [hb])) hne rfl rfl hh.direct hh.storage
    rfl rfl hh.fits (by simp [Role.remembers])
  rw [place_same (by rw [hb]; rfl)]
  exact hs

/-- Unmapping a block in the hands of a call. No other block lives in its mapping. -/
theorem Inv.unmapDirect {h : Header} (hb : γ b = .held t h) :
    Inv (unmapDirect b h.regionBase h.mappedSize s) (Function.update γ b .none) := by
  have hhdr : s.hdr b = h := hi.header b h (by rw [hb]; rfl)
  obtain ⟨L, hs, hback, hcount⟩ := hi.lists
  have hstate : ∃ table, Adaptive.unmapDirect b h.regionBase h.mappedSize s =
      { s with
        table := table
        mapped := s.mapped.filter (·.base ≠ h.regionBase)
        heldBy := Function.update s.heldBy b none } := by
    unfold Adaptive.unmapDirect unregisterRegion munmap
    dsimp only
    split <;> exact ⟨_, rfl⟩
  obtain ⟨table, hstate⟩ := hstate
  rw [hstate]
  refine hi.change ⟨L, ?_, hback, hcount⟩ hi.count rfl (hi.owned_ne (by simp [hb])) (fun _ _ _ => rfl) ?_
    (absurd rfl) (absurd rfl) (by simp [Role.remembers])
  · rw [place_same (by rw [hb]; rfl)]
    exact hs
  · intro a hab ha r hr h1
    have hne : r.base ≠ h.regionBase := by
      rw [h1, ← hhdr]
      exact fun e => hab (hi.inj a b ha (by simp [hb]) e)
    exact List.mem_filter.mpr ⟨hr, by simpa using hne⟩

/-- A fresh mapping holds no block. -/
theorem Inv.outside {host : Host τ} {base mapped : Nat} (hf : MapFits host base mapped s)
    {a : Nat} (ha : γ a ≠ .none) :
    ¬ (base ≤ a ∧ a < base + mapped) ∧ (0 < mapped → (s.hdr a).regionBase ≠ base) := by
  obtain ⟨-, -, -, ⟨r, hr, h1, h2⟩, above, fits⟩ := hi.housed a ha
  unfold Fits userFromHeader hdrOffset at fits
  rcases hf.2.2.2 r hr with h | h <;> omega

/-- Mapping: it fails, or a block with a mapping of its own is in the hands of `t`. -/
theorem Inv.mapDirect [DecidableEq τ] (host : Host τ) (t : τ) {req : AllocationRequest}
    {usable mapped : Nat}
    (hs : (directSizes req.size req.alignment req.debugRedzone).val = some (usable, mapped)) :
    ((mapDirect host t req usable mapped s).1 = none ∧ Inv (mapDirect host t req usable mapped s).2 γ) ∨
      ∃ b h, (mapDirect host t req usable mapped s).1 = some b ∧ γ b = .none ∧ h.usable = usable ∧
        Inv (mapDirect host t req usable mapped s).2 (Function.update γ b (.held t h)) := by
  rcases mmap_cases host mapped req.mode s with hmm | ⟨base, -, hf, hmm⟩
  · left
    unfold Adaptive.mapDirect
    rw [hmm]
    exact ⟨rfl, hi.congr rfl rfl rfl rfl rfl rfl rfl rfl⟩
  have htop := host.top_le
  obtain ⟨b, hb, hlo, hroom, -, hpos, -⟩ := direct_room hs (hf.2.2.1.trans htop)
  have hbase := hf.1
  obtain ⟨c, mem, hrun, -⟩ := mapDirect_ok usable (t := t) hmm hf.1 (by omega) hb
  have hnone : γ b = .none := by
    by_contra hne
    exact (hi.outside hf hne).1 ⟨hlo, by omega⟩
  obtain ⟨L, hsh, hback, hcount⟩ := hi.lists
  have hplace : (γ b).place = none := by rw [hnone]; rfl
  rw [hrun]
  let h : Header :=
    { directHeader req usable mapped base host.cfg.version ((s.epoch + 1) % 2^64) with debugCookie := c }
  have hat : Function.update (fun a => if base ≤ a ∧ a < base + mapped then zeroHeader else s.hdr a) b h b = h :=
    Function.update_self ..
  refine .inr ⟨b, h, rfl, hnone, rfl, hi.change
    ⟨L, ?_, hback.update (hsh.notMem_of_ne (by simp [hplace])), hcount⟩ hi.count
    rfl (hi.owned_ne (by simp [hnone])) (fun a hab ha => ?_) (fun a _ _ r hr _ => List.mem_cons_of_mem _ hr)
    (fun _ => ?_) (fun _ a _ ha => ?_) (fun h' e => hat.trans (Option.some.inj e))⟩
  · rw [place_same (by rw [hnone]; rfl)]
    exact hsh.setNext hplace
  · dsimp only
    rw [Function.update_of_ne hab, if_neg (hi.outside hf ha).1]
  · refine ⟨by omega, congrArg (·.flags.pooled) hat, congrArg Header.storage hat,
      ⟨⟨base, mapped, req.mode⟩, List.mem_cons_self, ?_, ?_⟩, ?_, ?_⟩
    · exact (congrArg Header.regionBase hat).symm
    · exact (congrArg Header.mappedSize hat).symm
    · exact Nat.le_trans (Nat.le_of_eq (congrArg Header.regionBase hat)) hlo
    · unfold Fits
      dsimp only
      rw [hat]
      exact (Nat.le_add_right ..).trans hroom
  · dsimp only
    rw [hat]
    exact (hi.outside hf ha).2 (by omega)

/-! ## The owners -/

/-- A caller passes a block it owns to a call. -/
theorem Inv.lend (t : τ) {g : Grant} (hs : s.lend (some g) = some s') :
    ∃ b, g.ptr = userFromHeader b ∧ γ b = .owned ∧
      Inv s' (Function.update γ b (.entered t (s.hdr b))) := by
  unfold State.lend at hs
  dsimp only at hs
  split at hs
  case isFalse => cases hs
  next hg =>
    obtain rfl := Option.some.inj hs
    obtain ⟨b, hp, hb⟩ := hi.ledger g.ptr g hg
    obtain ⟨L, hsh, hback, hcount⟩ := hi.lists
    refine ⟨b, hp, hb, hi.pass ⟨L, ?_, hback, hcount⟩ hi.count (hi.heldBy_same (by rw [hb]; rfl)) ?_
      (by simp [hb]) rfl rfl (fun h' e => Option.some.inj e)⟩
    · rw [place_same (by rw [hb]; rfl)]
      exact hsh
    · intro p g' hg'
      dsimp only at hg'
      by_cases e : p = g.ptr
      · subst e; rw [Function.update_self] at hg'; cases hg'
      · rw [Function.update_of_ne e] at hg'
        obtain ⟨a, hpa, ha⟩ := hi.ledger p g' hg'
        refine .inl ⟨a, ?_, hpa, ha⟩
        rintro rfl
        exact e (hpa.trans hp.symm)

/-- A call returns a block to its caller. -/
theorem Inv.give {h : Header} (hb : γ b = .entered t h) (size alignment : Nat) :
    Inv (s.give ⟨userFromHeader b, size, alignment⟩) (Function.update γ b .owned) := by
  obtain ⟨L, hsh, hback, hcount⟩ := hi.lists
  refine hi.pass ⟨L, ?_, hback, hcount⟩ hi.count (hi.heldBy_same (by rw [hb]; rfl)) ?_ (by simp [hb]) rfl rfl
    (by simp [Role.remembers])
  · rw [place_same (by rw [hb]; rfl)]
    exact hsh
  · intro p g hg
    unfold State.give at hg
    dsimp only at hg
    by_cases e : p = userFromHeader b
    · exact .inr ⟨e, rfl⟩
    · rw [Function.update_of_ne e] at hg
      exact hi.owned_ne (by simp [hb]) p g hg

end

variable [DecidableEq τ]

/-! ## Calls that keep the invariant under any interleaving -/

section
variable (host : Host τ) (t : τ)

def discipline : Discipline Act Ans (State τ) τ where
  exec := exec host
  Ghost := Nat → Role τ
  View := Nat → Option (Bool × Header)
  view γ t := fun b => (γ b).seenBy t
  inv := Inv
  cond := ReuseFits

/-- The blocks a thread knows, whether they are registered, and their headers. -/
abbrev View := Nat → Option (Bool × Header)

/-- What a thread without a call in flight knows. -/
def idle : Nat → Option (Bool × Header) := fun _ => none

/-- What a thread knows that has at most block `b`. -/
def own (b : Nat) (x : Option (Bool × Header)) : Nat → Option (Bool × Header) := Function.update idle b x

/-- A call of the allocator is safe from one view to another. -/
abbrev Keeps {α : Type} (p : P α) (φ : View)
    (Q : α → View → Prop) : Prop :=
  Safe (discipline host) (fun _ _ => True) t p φ Q

section rules
variable {host : Host τ} {t : τ} {α : Type} {a : Act} {k : Ans a → P α} {b : Nat}
  {Q : α → View → Prop}

end rules

section calls
variable {host : Host τ} {t : τ} {b : Nat} {h : Header}

/-- How a request ends: without a block, or with a registered one that the caller alone has. -/
def Ends (req : AllocationRequest) (r : Nat) (φ : View) : Prop :=
  (r = 0 ∧ φ = idle) ∨
    ∃ b h, r = userFromHeader b ∧ φ = own b (some (true, h)) ∧ h.usable = usable16 req.size

end calls

end

/-! ## Every reachable state -/

section
variable (host : Host τ)

/-- What a call returns with. -/
def Returns (_t : τ) (c : ServiceCall) (r : Nat) (φ : View) : Prop :=
  match c with
  | .allocate req => Ends req r φ
  | .deallocate _ _ => φ = idle

end

/-! ## Runs of one thread -/

instance (t : τ) (a : Act) (s : State τ) : Decidable (ReuseFits t a s) := by
  unfold ReuseFits Fits
  split <;> infer_instance

end MyMalloc.Adaptive.Extents
