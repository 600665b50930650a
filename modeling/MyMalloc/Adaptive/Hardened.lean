import MyMalloc.Adaptive.Mapping
import MyMalloc.Adaptive.Runtime
import MyMalloc.Adaptive.System
import Mathlib.Data.Nat.ModEq

/- Corruption detection of the hardened mode (`adaptive_services.cpp`): what the
   guards of a block record, and what `adaptive_free` makes of them.

   A block of this mode has its own mapping, a cookie in the header that covers
   the header's address and the requested size, and 16 bytes of a fixed pattern
   behind the usable bytes. The counter of header corruptions is raised at two
   places: by the guard check of `deallocate`, and by `header_from_user` when
   the header is not plausible. A block reaches at most one of them. -/
namespace MyMalloc.Adaptive

variable {τ : Type} [DecidableEq τ] (host : Host τ) (t : τ)

/-! ## The cookie -/

/-- Multiplying by the odd constant of the cookie loses nothing modulo 2^64. -/
theorem cookieFactor_inj {a b : Nat} (ha : a < 2^64) (hb : b < 2^64)
    (h : a * 0x9E3779B1 % 2^64 = b * 0x9E3779B1 % 2^64) : a = b := by
  have hmod : a ≡ b [MOD 2^64] :=
    Nat.ModEq.cancel_right_of_coprime (by decide) h
  exact Nat.ModEq.eq_of_lt_of_lt hmod ha hb

/-- The cookie covers the requested size. -/
theorem debugCookieFor_inj {hdr : Nat} {h h' : Header} (hr : h.requested < 2^64)
    (hr' : h'.requested < 2^64) (e : debugCookieFor hdr h = debugCookieFor hdr h') :
    h.requested = h'.requested :=
  cookieFactor_inj hr hr' (Nat.xor_right_injective e)

/-! ## Intact guards -/

/-- The header of a block of the hardened mode, apart from the requested size and the cookie. -/
structure HardenedHeader (hdr : Nat) (h : Header) : Prop where
  pos : hdr ≠ 0
  magic : h.magic = adaptiveMagic
  mode : h.modeId = .hardenedDebug
  direct : h.flags.pooled = false
  redzone : h.flags.redzone = true
  region : h.regionBase ≠ 0
  mapped : hdrOffset ≤ h.mappedSize

/-- A block of the hardened mode as `allocate_direct_map` leaves it. -/
structure Guarded (hdr : Nat) (s : State τ) : Prop where
  header : HardenedHeader hdr (s.hdr hdr)
  requested_le : (s.hdr hdr).requested ≤ (s.hdr hdr).usable
  requested_lt : (s.hdr hdr).requested < 2^64
  cookie : (s.hdr hdr).debugCookie = debugCookieFor hdr (s.hdr hdr)
  canary : ∀ i < debugRedzoneSize, s.mem (userFromHeader hdr + (s.hdr hdr).usable + i) = canaryByte i

omit [DecidableEq τ] in
theorem validateDebugGuards_iff {hdr : Nat} {s : State τ} (hz : (s.hdr hdr).flags.redzone = true) :
    validateDebugGuards hdr s = true ↔
      (s.hdr hdr).debugCookie = debugCookieFor hdr (s.hdr hdr) ∧
        ∀ i < debugRedzoneSize, s.mem (userFromHeader hdr + (s.hdr hdr).usable + i) = canaryByte i := by
  unfold validateDebugGuards
  simp only [hz, Bool.not_true, Bool.false_eq_true, if_false]
  split
  next h => simp [h]
  next h => simp [not_not.mp h]

omit [DecidableEq τ] in
theorem Guarded.congr {hdr : Nat} {s s' : State τ} (h : Guarded hdr s) (h1 : s'.hdr = s.hdr)
    (h2 : s'.mem = s.mem) : Guarded hdr s' := by
  obtain ⟨header, requested_le, requested_lt, cookie, canary⟩ := h
  rw [← h1] at header requested_le requested_lt cookie canary
  rw [← h2] at canary
  exact ⟨header, requested_le, requested_lt, cookie, canary⟩

/-! ## Allocation -/

/-- A request of the hardened mode. -/
structure HardenedRequest (req : AllocationRequest) : Prop where
  mode : req.mode = .hardenedDebug
  redzone : req.debugRedzone = true
  size : req.size < 2^64
  alignment : Alignable req.alignment

omit [DecidableEq τ] in
theorem mapDirect_guarded {req : AllocationRequest} (hr : HardenedRequest req) {usable mapped : Nat}
    (hs : (directSizes req.size req.alignment req.debugRedzone).val = some (usable, mapped))
    {s : State τ} {hdr : Nat} (h : (mapDirect host t req usable mapped s).1 = some hdr) :
    Guarded hdr (mapDirect host t req usable mapped s).2 := by
  rcases mmap_cases host mapped req.mode s with hmm | ⟨base, -, hfit, hmm⟩
  · simp only [mapDirect, hmm] at h
    cases h
  obtain ⟨hbase, hpage, htop, -⟩ := hfit
  have htop' := host.top_le
  obtain ⟨b, hb, hlo, -, hin, hsize, hpos, -⟩ := direct_fits hs hr.alignment hpage (by omega)
  have h112 : hdrOffset = 112 := rfl
  have hb' : (directUser base req.alignment).val - hdrOffset = b := by omega
  have hreg : ¬ (base = 0 ∨ mapped = 0) := by omega
  simp only [mapDirect, hmm, registerRegion, if_neg hreg, hb'] at h ⊢
  obtain rfl : b = hdr := Option.some.inj h
  simp only [writeDebugGuards, Function.update_self, directHeader, hr.redzone, if_true]
  refine ⟨⟨by omega, ?_, ?_, ?_, ?_, ?_, ?_⟩, ?_, ?_, ?_, ?_⟩ <;> simp only [Function.update_self]
  · exact hr.mode
  · exact hbase
  · omega
  · exact hsize
  · exact hr.size
  · rfl
  · intro i hi
    unfold fill
    rw [if_pos ⟨by omega, by omega⟩, Nat.add_sub_cancel_left]

theorem allocateDirectMap_guarded {req : AllocationRequest} (hr : HardenedRequest req) (s : State τ)
    (hp : ((allocateDirectMap req).run (exec host t) s).1.userPtr ≠ 0) :
    ∃ hdr, ((allocateDirectMap req).run (exec host t) s).1.userPtr = userFromHeader hdr ∧
      Guarded hdr ((allocateDirectMap req).run (exec host t) s).2 := by
  have hmode : ¬ (req.mode = .largeObjectStreaming ∧ req.alignment ≤ 16) := by
    rw [hr.mode]
    exact fun h => nomatch h.1
  unfold allocateDirectMap orFail at hp ⊢
  cases hs : (directSizes req.size req.alignment req.debugRedzone).val with
  | none =>
    rw [hs] at hp
    exact absurd rfl hp
  | some sizes =>
    obtain ⟨usable, mapped⟩ := sizes
    rw [hs] at hp
    simp only [hmode, if_false, Prog.pure_eq, Prog.done_bind, ne_eq, not_true_eq_false,
      Prog.perform_bind, Prog.run_act, exec] at hp ⊢
    have hg : ∀ hdr, (mapDirect host t req usable mapped s).1 = some hdr →
        Guarded hdr (mapDirect host t req usable mapped s).2 :=
      fun _ h => mapDirect_guarded host t hr hs h
    generalize mapDirect host t req usable mapped s = r at hp hg ⊢
    obtain ⟨hdr, s'⟩ := r
    cases hdr with
    | none => exact absurd rfl hp
    | some hdr => exact ⟨hdr, rfl, (hg hdr rfl).congr rfl rfl⟩

/-! ## Steps that leave the guards alone -/

/-- Steps that write neither headers nor user bytes and count no corruption. -/
def Quiet : Act → Prop
  | .tele e => e ≠ .headerCorruption
  | .loadMode => True
  | .switchMode _ _ => True
  | .selectorTick => True
  | .sampleWindow => True
  | .loadCooldown => True
  | .setCooldown _ => True
  | .pageMaybeOwned _ => True
  | .headerPlausible _ _ => True
  | .readHeader _ => True
  | .registryInsert _ => True
  | .registryRemove _ => True
  | .validateDebugGuards _ => True
  | _ => False

/-- What such steps leave as it is. -/
structure Calm (s s' : State τ) : Prop where
  hdr : s'.hdr = s.hdr
  mem : s'.mem = s.mem
  table : s'.table = s.table
  count : s'.stats.headerCorruptionCount = s.stats.headerCorruptionCount

omit [DecidableEq τ] in
theorem Calm.refl (s : State τ) : Calm s s := ⟨rfl, rfl, rfl, rfl⟩

omit [DecidableEq τ] in
theorem Calm.trans {s₁ s₂ s₃ : State τ} (h : Calm s₁ s₂) (h' : Calm s₂ s₃) : Calm s₁ s₃ :=
  ⟨h'.hdr.trans h.hdr, h'.mem.trans h.mem, h'.table.trans h.table, h'.count.trans h.count⟩

omit [DecidableEq τ] in
theorem record_count {e : Event} (h : e ≠ .headerCorruption) (s : State τ) :
    (record host t s e).headerCorruptionCount = s.stats.headerCorruptionCount := by
  cases e <;> first | rfl | exact absurd rfl h

theorem exec_quiet {a : Act} (ha : Quiet a) (s : State τ) : Calm s (exec host t a s).2 := by
  cases a with
  | tele e => exact ⟨rfl, rfl, rfl, record_count host t ha s⟩
  | loadMode | switchMode | selectorTick | sampleWindow | loadCooldown | setCooldown | pageMaybeOwned
  | headerPlausible | readHeader | registryInsert | registryRemove | validateDebugGuards =>
    exact ⟨rfl, rfl, rfl, rfl⟩
  | _ => exact absurd ha id

theorem run_quiet {α : Type} {p : P α} (hp : p.All Quiet) (s : State τ) :
    Calm s (p.run (exec host t) s).2 :=
  hp.run_steps Calm.refl (fun _ _ _ => Calm.trans) (fun _ ha => exec_quiet host t ha) s

omit [DecidableEq τ] in
theorem adaptiveSelectorMaybeSwitch_quiet : (adaptiveSelectorMaybeSwitch host).All Quiet := by
  unfold adaptiveSelectorMaybeSwitch adaptiveActivateMode
  split
  · trivial
  refine .bind (.perform trivial) fun n => ?_
  split
  · trivial
  refine .bind (.perform trivial) fun window => .bind (.perform trivial) fun current => ?_
  generalize host.select window.1 window.2 current = choice
  obtain ⟨next, gain⟩ := choice
  refine .bind (.perform trivial) fun deadline => ?_
  split
  · trivial
  refine .bind (.bind (.perform trivial) fun old => ?_) fun _ => .perform trivial
  split
  · trivial
  · exact .bind (.perform trivial) fun _ => .perform nofun

/-! ## Release -/

section
variable {hdr : Nat} {s : State τ}

omit [DecidableEq τ] in
theorem headerPlausible_hardened (hh : HardenedHeader hdr (s.hdr hdr)) :
    headerPlausible hdr (userFromHeader hdr) s = decide ((s.hdr hdr).requested ≤ (s.hdr hdr).usable) := by
  unfold headerPlausible
  simp only [hh.pos, hh.magic, hh.direct, hh.region, hh.mapped, ne_eq, not_true_eq_false, or_self, if_false,
    Bool.false_eq_true, not_false_eq_true, decide_true, Bool.and_self]
  by_cases h : (s.hdr hdr).requested ≤ (s.hdr hdr).usable
  · rw [if_neg (Nat.not_lt.mpr h), decide_eq_true h]
  · rw [if_pos (Nat.lt_of_not_le h), decide_eq_false h]

omit [DecidableEq τ] in
theorem HardenedHeader.userFromHeader_ne {h : Header} (hh : HardenedHeader hdr h) :
    userFromHeader hdr ≠ 0 := by
  have := hh.pos
  unfold userFromHeader
  omega

theorem run_headerFast (hh : HardenedHeader hdr (s.hdr hdr))
    (hp : pageMaybeOwned (userFromHeader hdr) s = true) :
    (headerFast (userFromHeader hdr)).run (exec host t) s =
      (if (s.hdr hdr).requested ≤ (s.hdr hdr).usable then hdr else 0, s) := by
  have hle : ¬ userFromHeader hdr < hdrOffset := by unfold userFromHeader; omega
  have hsub : userFromHeader hdr - hdrOffset = hdr := Nat.add_sub_cancel _ _
  simp only [headerFast, hh.userFromHeader_ne, if_false, Prog.perform_bind, Prog.run_act, exec, hp,
    Bool.not_true, Bool.false_eq_true, hle, or_self, hsub, headerPlausible_hardened hh, Prog.pure_eq,
    Prog.run_done, decide_eq_true_eq]

/-- A header with a magic word is diagnosed as corrupt. -/
theorem run_diagnose (hh : HardenedHeader hdr (s.hdr hdr))
    (hp : pageMaybeOwned (userFromHeader hdr) s = true) (hc : pageMaybeOwned hdr s = true) :
    (diagnose (userFromHeader hdr)).run (exec host t) s =
      ((), { s with stats := s.stats.onHeaderCorruption }) := by
  have hle : ¬ userFromHeader hdr < hdrOffset := by unfold userFromHeader; omega
  have hsub : userFromHeader hdr - hdrOffset = hdr := Nat.add_sub_cancel _ _
  have hmagic : ((s.hdr hdr).magic == 0) = false := by rw [hh.magic]; rfl
  simp only [diagnose, Prog.run_act, exec, hp, hc, Bool.not_true, Bool.false_eq_true,
    hle, or_self, if_false, if_true, hsub, Prog.act_bind, Prog.pure_eq, Prog.done_bind, hmagic,
    Prog.perform, Prog.run_done, record]

/-- Looking up the block of a user pointer: an implausible size is counted as corruption. -/
theorem run_headerFromUser (hh : HardenedHeader hdr (s.hdr hdr))
    (hp : pageMaybeOwned (userFromHeader hdr) s = true) (hc : pageMaybeOwned hdr s = true) :
    (headerFromUser (userFromHeader hdr)).run (exec host t) s =
      if (s.hdr hdr).requested ≤ (s.hdr hdr).usable then (hdr, s)
      else (0, { s with stats := s.stats.onHeaderCorruption }) := by
  rw [headerFromUser, Prog.run_bind, run_headerFast host t hh hp]
  by_cases h : (s.hdr hdr).requested ≤ (s.hdr hdr).usable
  · simp only [h, if_true, hh.pos, ne_eq, not_false_eq_true, Prog.pure_eq, Prog.run_done]
  · simp only [h, if_false, ne_eq, not_true_eq_false, Prog.run_bind, run_diagnose host t hh hp hc,
      Prog.pure_eq, Prog.run_done]

/-- The checks of the hardened decision count a corruption if and only if the guards changed. -/
theorem run_inspect_count (h : Header) :
    ((inspect hdr h (hardenedFree h)).run (exec host t) s).2.stats.headerCorruptionCount =
      if validateDebugGuards hdr s = true then s.stats.headerCorruptionCount
      else s.stats.headerCorruptionCount + 1 := by
  have hpoison : ∀ s : State τ, ((if (hardenedFree h).poison ∧ 0 < h.usable then step (.poison hdr)
      else pure () : P Unit).run (exec host t) s).2.stats = s.stats := by
    intro s
    split <;> rfl
  have hcheck : (hardenedFree h).checkRedzone = true := rfl
  rw [inspect, if_pos hcheck]
  simp only [Prog.perform_bind, Prog.run_act, exec]
  by_cases hv : validateDebugGuards hdr s = true
  · simp only [hv, if_true, hpoison]
  · simp only [hv, if_false, Bool.false_eq_true, Prog.run_act, exec, hpoison]
    rfl

/-- Releasing a block of the hardened mode counts a corruption if and only if the guards changed. -/
theorem run_release_count (hh : HardenedHeader hdr (s.hdr hdr)) :
    ((release host t hdr (s.hdr hdr)).run (exec host t) s).2.stats.headerCorruptionCount =
      if validateDebugGuards hdr s = true then s.stats.headerCorruptionCount
      else s.stats.headerCorruptionCount + 1 := by
  have hplan : (adaptiveModePolicy host.cfg (s.hdr hdr).modeId).planFree = hardenedFree := by
    rw [hh.mode]
    rfl
  have hq : (hardenedFree (s.hdr hdr)).quarantine = true ∨
      (hardenedFree (s.hdr hdr)).action = .quarantine := .inl rfl
  simp only [release, hplan, deallocate, if_neg hh.pos, Prog.run_act, exec, hh.direct,
    Bool.false_eq_true, if_false, deallocateDirect, if_pos hq, Prog.run_bind, Prog.perform,
    Prog.run_done, enterQuarantine]
  exact run_inspect_count host t _

/-- **What a free counts**: one corruption if the requested size is implausible or the guards
changed, and none otherwise. -/
theorem run_adaptiveFree_count (hh : HardenedHeader hdr (s.hdr hdr))
    (hp : pageMaybeOwned (userFromHeader hdr) s = true) (hc : pageMaybeOwned hdr s = true) :
    ((adaptiveFree host t (userFromHeader hdr)).run (exec host t) s).2.stats.headerCorruptionCount =
      if (s.hdr hdr).requested ≤ (s.hdr hdr).usable ∧ validateDebugGuards hdr s = true then
        s.stats.headerCorruptionCount
      else s.stats.headerCorruptionCount + 1 := by
  have hselect := fun s => (run_quiet host t (adaptiveSelectorMaybeSwitch_quiet host) s).count
  -- the call itself is counted first
  let s₁ : State τ := { s with stats := s.stats.onFreeCall }
  have hlook := run_headerFromUser host t (s := s₁) hh hp hc
  have hrun : (adaptiveFree host t (userFromHeader hdr)).run (exec host t) s =
      (do
        let hdr ← headerFromUser (userFromHeader hdr)
        if hdr = 0 then do
          tele .invalidFree
          adaptiveSelectorMaybeSwitch host
        else do
          let h ← step (.readHeader hdr)
          release host t hdr h
          adaptiveSelectorMaybeSwitch host : P Unit).run (exec host t) s₁ := by
    rw [adaptiveFree, if_neg hh.userFromHeader_ne]
    rfl
  rw [hrun, Prog.run_bind, hlook]
  by_cases h : (s.hdr hdr).requested ≤ (s.hdr hdr).usable
  · have h₁ : (s₁.hdr hdr).requested ≤ (s₁.hdr hdr).usable := h
    simp only [if_pos h₁, if_neg hh.pos, Prog.perform_bind, Prog.run_act, exec, Prog.run_bind, hselect]
    rw [run_release_count host t (s := s₁) hh]
    simp only [h, true_and]
    rfl
  · have h₁ : ¬ (s₁.hdr hdr).requested ≤ (s₁.hdr hdr).usable := h
    simp only [if_neg h₁, if_true, Prog.perform_bind, Prog.run_act, exec, hselect]
    rw [if_neg (fun h' => h h'.1)]
    rfl

end

/-! ## From allocation to release -/

omit [DecidableEq τ] in
/-- The request the hardened plan makes of a size and an alignment. -/
theorem hardenedRequest (size : UInt64) {alignment : Nat} (hal : Alignable alignment) (direct : Bool) :
    HardenedRequest (requestFromPlan host t size.toNat alignment .hardenedDebug
      (hardenedAllocate size.toNat alignment) direct) :=
  ⟨rfl, rfl, size.toNat_lt, hal⟩

/-- What an allocation does once its storage path returned: counting and selecting. -/
def counted (result : AllocationResult) : P AllocationResult :=
  if result.userPtr ≠ 0 then .act (.tele (.alloc result)) fun _ => do
    adaptiveSelectorMaybeSwitch host
    pure result
  else .act (.tele .allocFailure) fun _ => do
    adaptiveSelectorMaybeSwitch host
    pure result

theorem run_counted (result : AllocationResult) (s : State τ) :
    ((counted host result).run (exec host t) s).1 = result ∧
      Calm s ((counted host result).run (exec host t) s).2 := by
  have hsel := adaptiveSelectorMaybeSwitch_quiet host
  unfold counted
  constructor
  · split <;> simp only [Prog.run_act, Prog.run_bind, Prog.pure_eq, Prog.run_done]
  · apply run_quiet
    split <;> exact ⟨nofun, fun _ => hsel.bind fun _ => trivial⟩

theorem allocateWithActiveMode_guarded {s : State τ} (hmode : s.rt.active = .hardenedDebug)
    (size : UInt64) {alignment : Nat} (hal : Alignable alignment)
    (hp : ((allocateWithActiveMode host t size.toNat alignment).run (exec host t) s).1.userPtr ≠ 0) :
    ∃ hdr, ((allocateWithActiveMode host t size.toNat alignment).run (exec host t) s).1.userPtr =
        userFromHeader hdr ∧
      Guarded hdr ((allocateWithActiveMode host t size.toNat alignment).run (exec host t) s).2 := by
  simp only [allocateWithActiveMode, Prog.perform_bind, Prog.run_act, exec, hmode, Prog.run_bind,
    adaptiveModePolicy] at hp ⊢
  have hr := allocateDirectMap_guarded host t (hardenedRequest host t size hal true) s
  have hby : allocateBy host (hardenedAllocate size.toNat alignment).storage
      (requestFromPlan host t size.toNat alignment .hardenedDebug (hardenedAllocate size.toNat alignment)
        ((hardenedAllocate size.toNat alignment).preferDirectMap ||
          (hardenedAllocate size.toNat alignment).storage == .directMap)) =
      allocateDirectMap (requestFromPlan host t size.toNat alignment .hardenedDebug
        (hardenedAllocate size.toNat alignment) true) := rfl
  rw [hby] at hp ⊢
  generalize (allocateDirectMap (requestFromPlan host t size.toNat alignment .hardenedDebug
        (hardenedAllocate size.toNat alignment) true)).run (exec host t) s = r at hp hr ⊢
  change ((counted host r.1).run (exec host t) r.2).1.userPtr ≠ 0 at hp
  change ∃ hdr, ((counted host r.1).run (exec host t) r.2).1.userPtr = _ ∧
    Guarded hdr ((counted host r.1).run (exec host t) r.2).2
  obtain ⟨hfst, hcalm⟩ := run_counted host t r.1 r.2
  rw [hfst] at hp ⊢
  obtain ⟨hdr, hptr, hg⟩ := hr hp
  exact ⟨hdr, hptr, hg.congr hcalm.hdr hcalm.mem⟩

/-- The request `reallocate` makes when it moves a block of the hardened mode. -/
def movedRequest (size : Nat) : AllocationRequest :=
  requestFromPlan host t size 16 .hardenedDebug
    ((adaptiveModePolicy host.cfg .hardenedDebug).planAllocate size 16)
    ((adaptiveModePolicy host.cfg .hardenedDebug).planAllocate size 16).preferDirectMap

/-- The allocations of the hardened mode, from state `s` to pointer `p` and state `s'`: by the entry
points while it is active, and by `reallocate` when it moves a block of this mode. -/
inductive AllocatesHardened (s : State τ) (p : Nat) (s' : State τ) : Prop
  | malloc (size : UInt64) (active : s.rt.active = .hardenedDebug)
      (run : (adaptiveMalloc host t size.toNat).run (exec host t) s = (p, s'))
  | memalign (alignment size : UInt64) (active : s.rt.active = .hardenedDebug)
      (run : (adaptiveMemalign host t alignment.toNat size.toNat).run (exec host t) s = (p, s'))
  | moved (size : UInt64) (result : AllocationResult) (ptr : p = result.userPtr)
      (run : (allocateBy host ((adaptiveModePolicy host.cfg .hardenedDebug).planAllocate size.toNat 16).storage
        (movedRequest host t size.toNat)).run (exec host t) s = (result, s'))

theorem run_counted_allocation {s s' : State τ} {p : Nat} (active : s.rt.active = .hardenedDebug)
    (size : UInt64) {alignment : Nat} (hal : Alignable alignment)
    (run : (do
      tele .mallocCall
      let r ← allocateWithActiveMode host t size.toNat alignment
      pure r.userPtr : P Nat).run (exec host t) s = (p, s')) (hp : p ≠ 0) :
    ∃ hdr, p = userFromHeader hdr ∧ Guarded hdr s' := by
  simp only [Prog.perform_bind, Prog.run_act, Prog.run_bind, Prog.pure_eq, Prog.run_done,
    Prod.mk.injEq] at run
  obtain ⟨rfl, rfl⟩ := run
  have active' : (exec host t (.tele .mallocCall) s).2.rt.active = .hardenedDebug := active
  exact allocateWithActiveMode_guarded host t active' size hal hp

theorem AllocatesHardened.guarded {s s' : State τ} {p : Nat} (h : AllocatesHardened host t s p s')
    (hp : p ≠ 0) : ∃ hdr, p = userFromHeader hdr ∧ Guarded hdr s' := by
  cases h with
  | malloc size active run => exact run_counted_allocation host t active size (.inl le_rfl) run hp
  | memalign alignment size active run =>
    unfold adaptiveMemalign at run
    have hlt : (if alignment.toNat < 8 then 8 else alignment.toNat) < 2^64 := by
      have := alignment.toNat_lt
      split <;> omega
    dsimp only at run
    generalize (if alignment.toNat < 8 then 8 else alignment.toNat) = asked at run hlt
    split at run
    · exact run_counted_allocation host t active size (.inl le_rfl) run hp
    next hgt =>
      cases hal : memalignAlignment asked with
      | none =>
        rw [hal] at run
        have h0 : (0 : Nat) = p := congrArg Prod.fst run
        exact absurd h0.symm hp
      | some a =>
        rw [hal] at run
        obtain ⟨k, hk, rfl⟩ := memalignAlignment_spec (by omega) hlt hal
        exact run_counted_allocation host t active size (.inr ⟨k, hk, rfl⟩) run hp
  | moved size result ptr run =>
    have hreq := hardenedRequest host t size (.inl le_rfl : Alignable 16) true
    have hg := allocateDirectMap_guarded host t hreq s
    change (allocateDirectMap (requestFromPlan host t size.toNat 16 .hardenedDebug
      (hardenedAllocate size.toNat 16) true)).run (exec host t) s = _ at run
    rw [run] at hg
    rw [ptr] at hp ⊢
    exact hg hp

theorem run_adaptiveRealloc_inPlace {hdr n : Nat} {s : State τ} (hh : HardenedHeader hdr (s.hdr hdr))
    (hr : (s.hdr hdr).requested ≤ (s.hdr hdr).usable)
    (hp : pageMaybeOwned (userFromHeader hdr) s = true) (hn : n ≠ 0) (hle : n ≤ (s.hdr hdr).usable) :
    ((adaptiveRealloc host t (userFromHeader hdr) n).run (exec host t) s).1 = userFromHeader hdr ∧
      Calm s ((adaptiveRealloc host t (userFromHeader hdr) n).run (exec host t) s).2 := by
  let s₁ : State τ := { s with stats := s.stats.onRealloc }
  have hlook := run_headerFast host t (s := s₁) hh hp
  rw [if_pos (show (s₁.hdr hdr).requested ≤ (s₁.hdr hdr).usable from hr)] at hlook
  have hfound : (headerFromUser (userFromHeader hdr)).run (exec host t) s₁ = (hdr, s₁) := by
    rw [headerFromUser, Prog.run_bind, hlook]
    simp only [hh.pos, ne_eq, not_false_eq_true, if_true, Prog.pure_eq, Prog.run_done]
  have hrun : (adaptiveRealloc host t (userFromHeader hdr) n).run (exec host t) s =
      (do
        let hdr ← headerFromUser (userFromHeader hdr)
        if hdr = 0 then do
          tele .invalidFree
          pure 0
        else reallocate host t hdr n : P Nat).run (exec host t) s₁ := by
    rw [adaptiveRealloc, if_neg hh.userFromHeader_ne, if_neg hn]
    rfl
  rw [hrun, Prog.run_bind, hfound]
  simp only [if_neg hh.pos, reallocate, Prog.perform_bind, Prog.run_act, exec, s₁, hle, if_true,
    Prog.pure_eq, Prog.run_done, true_and]
  exact ⟨rfl, rfl, rfl, rfl⟩

omit [DecidableEq τ] in
/-- The redzone of the block is as it was. -/
def SameRedzone (hdr : Nat) (s s' : State τ) : Prop :=
  ∀ i < debugRedzoneSize, s'.mem (userFromHeader hdr + (s.hdr hdr).usable + i) =
    s.mem (userFromHeader hdr + (s.hdr hdr).usable + i)

/-- **Corruption detection**: for every block of the hardened mode, from its allocation in `s₁` to
its release in any state `s₂` whose page table has the pages of the block.

A free counts no corruption if header and redzone are as the allocation left them. It counts exactly
one if some bytes of the redzone changed, if the cookie alone changed, or if the requested size alone
changed, to whatever value. Resizing the block in place changes neither header nor memory. -/
theorem corruption_counted {s₀ s₁ : State τ} {p : Nat} (ha : AllocatesHardened host t s₀ p s₁)
    (hp : p ≠ 0) :
    ∃ hdr, p = userFromHeader hdr ∧
      (∀ (u : τ) (s : State τ) (n : UInt64), s.hdr hdr = s₁.hdr hdr → pageMaybeOwned p s = true →
        n ≠ 0 → n.toNat ≤ (s.hdr hdr).usable →
        ((adaptiveRealloc host u p n.toNat).run (exec host u) s).1 = p ∧
          Calm s ((adaptiveRealloc host u p n.toNat).run (exec host u) s).2) ∧
      ∀ (u : τ) (s₂ : State τ), pageMaybeOwned p s₂ = true → pageMaybeOwned hdr s₂ = true →
        let count := s₂.stats.headerCorruptionCount
        let after := ((adaptiveFree host u p).run (exec host u) s₂).2.stats.headerCorruptionCount
        (s₂.hdr hdr = s₁.hdr hdr → SameRedzone hdr s₁ s₂ → after = count) ∧
        (s₂.hdr hdr = s₁.hdr hdr → ¬ SameRedzone hdr s₁ s₂ → after = count + 1) ∧
        (∀ cookie, cookie ≠ (s₁.hdr hdr).debugCookie →
          s₂.hdr hdr = { s₁.hdr hdr with debugCookie := cookie } → SameRedzone hdr s₁ s₂ →
          after = count + 1) ∧
        (∀ requested < 2^64, requested ≠ (s₁.hdr hdr).requested →
          s₂.hdr hdr = { s₁.hdr hdr with requested := requested } → SameRedzone hdr s₁ s₂ →
          after = count + 1) := by
  obtain ⟨hdr, rfl, hg⟩ := ha.guarded host t hp
  refine ⟨hdr, rfl, ?_, ?_⟩
  · intro u s n hsame hpage hn hle
    have hn' : n.toNat ≠ 0 := fun h => hn (UInt64.toNat_inj.mp h)
    exact run_adaptiveRealloc_inPlace host u (by rw [hsame]; exact hg.header)
      (by rw [hsame]; exact hg.requested_le) hpage hn' hle
  · intro u s₂ hpage hcand
    have hh₁ := hg.header
    dsimp only
    -- the header is one of the hardened mode in all four cases
    have hcount : HardenedHeader hdr (s₂.hdr hdr) → _ := fun hh =>
      run_adaptiveFree_count host u hh hpage hcand
    have hguards : (s₂.hdr hdr).flags.redzone = true → _ := fun hz => validateDebugGuards_iff hz
    refine ⟨?_, ?_, ?_, ?_⟩
    · intro hsame hred
      rw [hsame] at hcount hguards
      rw [hcount hh₁, if_pos]
      refine ⟨hg.requested_le, (hguards hh₁.redzone).mpr ⟨hg.cookie, fun i hi => ?_⟩⟩
      rw [hred i hi]
      exact hg.canary i hi
    · intro hsame hred
      rw [hsame] at hcount hguards
      rw [hcount hh₁, if_neg]
      intro h
      apply hred
      intro i hi
      rw [((hguards hh₁.redzone).mp h.2).2 i hi, hg.canary i hi]
    · intro cookie hne hsame _
      rw [hsame] at hcount hguards
      rw [hcount ⟨hh₁.pos, hh₁.magic, hh₁.mode, hh₁.direct, hh₁.redzone, hh₁.region, hh₁.mapped⟩, if_neg]
      intro h
      have hcookie := ((hguards hh₁.redzone).mp h.2).1
      exact hne (hcookie.trans hg.cookie.symm)
    · intro requested hlt hne hsame _
      rw [hsame] at hcount hguards
      rw [hcount ⟨hh₁.pos, hh₁.magic, hh₁.mode, hh₁.direct, hh₁.redzone, hh₁.region, hh₁.mapped⟩, if_neg]
      intro h
      have hcookie := ((hguards hh₁.redzone).mp h.2).1
      exact hne (debugCookieFor_inj hlt hg.requested_lt (hcookie.symm.trans hg.cookie))

/-- A process of one thread in the hardened mode whose kernel maps at 1 MiB. -/
def debugHost : Host Unit where
  cfg := initOnce ⟨none, none, none, none, none, none, none, some "1"⟩
  token _ := 1
  token_pos _ := Nat.one_pos
  mmap _ := some (2^20)
  top := 2^40
  top_le := Host.low_top
  select _ _ m := (m, false)

/-- Its first call is `malloc(100)`. -/
def firstBlock : Nat × State Unit :=
  (adaptiveMalloc debugHost () (100 : UInt64).toNat).run (exec debugHost ()) (initState debugHost)

theorem corruption_counted_first :
    ((adaptiveFree debugHost () firstBlock.1).run (exec debugHost ()) firstBlock.2).2.stats.headerCorruptionCount =
      firstBlock.2.stats.headerCorruptionCount := by
  obtain ⟨hdr, hptr, -, h⟩ := corruption_counted debugHost () (.malloc 100 (by decide +kernel) rfl)
    (show firstBlock.1 ≠ 0 by decide +kernel)
  have haddr : firstBlock.1 = 2^20 + hdrOffset := by decide +kernel
  have hptr : firstBlock.1 = hdr + hdrOffset := hptr
  obtain rfl : hdr = 2^20 := by omega
  exact (h () firstBlock.2 (by decide +kernel) (by decide +kernel)).1 rfl (fun _ _ => rfl)

end MyMalloc.Adaptive
