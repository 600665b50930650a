import MyMalloc.Classic.Jemalloc.Malloc

/- The books of the runs.

   A run should know which of its slots are free: its bitmap, its `nfree`, the
   blocks callers hold and the entries of the thread caches should agree. They
   cannot even be compared. The bitmap is an array of zero bytes, and read as a
   `RunBitmap` its first eight bytes are a null pointer, or it is too short to
   have eight: `isFree_fresh`. So the first small allocation that obtains a run
   faults, and a run of calls is sound exactly as long as every small
   allocation is refused its run (`sound_iff_refused`). -/
namespace MyMalloc.Jemalloc

/-! ## Reading a fresh bitmap -/

theorem littleEndian_replicate (n : Nat) : littleEndian (List.replicate n 0) = 0 := by
  induction n with
  | zero => rfl
  | succ n ih => rw [List.replicate_succ, littleEndian, ih]

/-- A fresh bitmap cannot be read: it has no eight bytes, or they are a null pointer. -/
theorem isFree_fresh {addr n : Nat} (h : 0 < addr) :
    (⟨addr, List.replicate n 0⟩ : Bitmap).isFree 0 = none := by
  by_cases h8 : 8 ≤ n
  · have hbits : (⟨addr, List.replicate n 0⟩ : Bitmap).bits = some 0 := by
      rw [Bitmap.bits, List.length_replicate, if_pos h8, List.take_replicate,
        littleEndian_replicate]
    have hcell : (⟨addr, List.replicate n 0⟩ : Bitmap).cell 0 = some 0 := by
      rw [Bitmap.cell, hbits]; rfl
    rw [Bitmap.isFree, hcell, Option.bind_some, Bitmap.byteAt, if_neg (Nat.not_le.mpr h)]
    rfl
  · have hbits : (⟨addr, List.replicate n 0⟩ : Bitmap).bits = none := by
      rw [Bitmap.bits, List.length_replicate, if_neg h8]
    rw [Bitmap.isFree, Bitmap.cell, hbits]
    rfl

theorem sizeToClass_lt {n : Nat} (h : n ≤ smallMax) : sizeToClass n < nSmallClasses := by
  have hle : ¬ smallMax < (if n = 0 then 1 else n) := by
    split
    · decide
    · omega
  simp only [sizeToClass, if_neg hle]
  have := (@bisect_spec classInfo (if n = 0 then 1 else n) nSmallClasses 0 (nSmallClasses - 1)
    (by decide) (by decide)).2.1
  have e : nSmallClasses = 36 := rfl
  omega

theorem run_nonempty : ∀ c < nSmallClasses, 0 < runCapacity (classInfo c) ∧
    extentBytes (targetPages (classInfo c)) ≠ 0 := by decide +kernel

/-! ## The books -/

variable {τ : Type}

/-- The allocator and the small blocks callers hold. -/
structure World (τ : Type) where
  state : State τ
  live : List Nat

/-- The object at `a` is held, or sits in a thread cache. -/
def World.InUse (w : World τ) (a : Nat) : Prop :=
  a ∈ w.live ∨ ∃ t tc c, w.state.tcache t = some tc ∧ a ∈ tc.stack c

/-- The books of the run `e` with bitmap `b`: every read stays in the bitmap, `nfree` counts
the free slots, and the used ones are those in use. -/
structure RunBooks (w : World τ) (e : Extent) (b : Bitmap) : Prop where
  readable : ∀ i < e.runNslots, (b.isFree i).isSome
  nfree : e.nfree = ((List.range e.runNslots).filter (fun i => b.isFree i = some true)).length
  used : ∀ i < e.runNslots, b.isFree i = some false ↔ w.InUse (e.addr + i * e.runObjSize)

/-- The books of every run there is. -/
def Books (w : World τ) : Prop :=
  ∀ g, 1 ≤ g → g ≤ w.state.exts → g ∉ w.state.freed → 0 < (w.state.ext g).runNslots →
    ∃ b, (w.state.ext g).runBitmap = some b ∧ RunBooks w (w.state.ext g) b

inductive SmallCall (τ : Type) where
  | malloc (t : τ) (n : Nat)
  | free (t : τ) (p : Nat)

/-- Small requests, and frees of blocks that are held. -/
def SmallCall.Legal (w : World τ) : SmallCall τ → Prop
  | .malloc _ n => n ≤ smallMax
  | .free _ p => p ∈ w.live

variable [DecidableEq τ]

/-- One call; `none` is a fault. -/
def World.step (host : Host) (w : World τ) : SmallCall τ → Option (World τ)
  | .malloc t n => (jeMalloc host t n w.state).map (fun r => ⟨r.2, r.1.toList ++ w.live⟩)
  | .free t p => (jeFree t p w.state).map (fun s => ⟨s, w.live.erase p⟩)

/-- The block a call returns is not one that is held already. -/
def NotLive (host : Host) (w : World τ) : SmallCall τ → Prop
  | .malloc t n => ∀ r, jeMalloc host t n w.state = some r → ∀ p, r.1 = some p → p ∉ w.live
  | .free _ _ => True

/-- Along the calls, as far as they are legal: the books are right in every state, no call
faults, and no block is handed out twice. -/
def World.Sound (host : Host) : World τ → List (SmallCall τ) → Prop
  | w, [] => Books w
  | w, c :: cs => Books w ∧ (c.Legal w →
      NotLive host w c ∧ ∃ w', w.step host c = some w' ∧ w'.Sound host cs)

/-- The thread has no cache, or there is no memory for a run. -/
def Refused (host : Host) (w : World τ) : SmallCall τ → Prop
  | .malloc t _ => (jeInit t w.state).tcache t = none ∨ host.mmap w.state.mmapCalls = none
  | .free _ _ => True

/-- Along the calls, as far as they are legal, every allocation is refused its run. -/
def World.AllRefused (host : Host) : World τ → List (SmallCall τ) → Prop
  | _, [] => True
  | w, c :: cs => c.Legal w →
      Refused host w c ∧ ∀ w', w.step host c = some w' → w'.AllRefused host cs

def World.start (τ : Type) : World τ := ⟨State.start τ, []⟩

/-- No run was ever obtained. -/
structure Bare (w : World τ) : Prop where
  exts : w.state.exts = 0
  live : w.live = []
  tcache : ∀ t tc, w.state.tcache t = some tc → ∀ c, tc.stack c = []
  runcur : ∀ a c, (w.state.bin a c).runcur = 0
  runs : ∀ a c, (w.state.bin a c).runs = 0

omit [DecidableEq τ] in
theorem bare_start : Bare (World.start τ) :=
  ⟨rfl, rfl, nofun, fun _ _ => rfl, fun _ _ => rfl⟩

omit [DecidableEq τ] in
theorem Bare.books {w : World τ} (h : Bare w) : Books w := by
  intro g h1 h2
  rw [h.exts] at h2
  omega

theorem jeInit_mmapCalls (t : τ) (s : State τ) : (jeInit t s).mmapCalls = s.mmapCalls := by
  rw [jeInit]
  split
  · rfl
  · dsimp only
    split <;> rfl

theorem Bare.init {w : World τ} (h : Bare w) (t : τ) : Bare ⟨jeInit t w.state, w.live⟩ := by
  rw [jeInit]
  split
  · exact h
  · dsimp only
    split
    · exact ⟨h.exts, h.live, h.tcache, fun _ _ => rfl, fun _ _ => rfl⟩
    · refine ⟨h.exts, h.live, fun u uc e c => ?_, fun _ _ => rfl, fun _ _ => rfl⟩
      by_cases hu : u = t
      · subst hu
        have e' : some (⟨fun _ => [], w.state.nextArena % nArenas, 0⟩ : Tcache) = some uc := by
          simpa using e
        rw [← Option.some.inj e']
      · exact h.tcache u uc (by simpa [Function.update_of_ne hu] using e) c

omit [DecidableEq τ] in
theorem chooseRun_bare {host : Host} {a c : Nat} {s : State τ} (hc : (s.bin a c).runcur = 0)
    (hr : (s.bin a c).runs = 0) :
    chooseRun host a c s = if (binAllocRun host a c s).1 = 0 then binAllocRun host a c s
      else ((binAllocRun host a c s).1, (binAllocRun host a c s).2.modifyBin a c
        ({ · with runcur := (binAllocRun host a c s).1 })) := by
  have hf : findRun s (s.exts + 1) 0 = 0 := by simp [findRun]
  simp only [chooseRun, hc, hr, true_or, if_true, hf]

omit [DecidableEq τ] in
theorem binAlloc_refused {host : Host} {a c : Nat} {s : State τ}
    (hc : (s.bin a c).runcur = 0) (hr : (s.bin a c).runs = 0)
    (hm : host.mmap s.mmapCalls = none) :
    binAlloc host a c s = some (none, { s with mmapCalls := s.mmapCalls + 1 }) := by
  have hext : extentAlloc host (targetPages (classInfo c)) s =
      (0, { s with mmapCalls := s.mmapCalls + 1 }) := by
    rw [extentAlloc, mmap, hm, ite_self]
    rfl
  have hbin : binAllocRun host a c s = (0, { s with mmapCalls := s.mmapCalls + 1 }) := by
    simp only [binAllocRun, hext, if_true]
  rw [binAlloc, chooseRun_bare hc hr, hbin]
  rfl

omit [DecidableEq τ] in
/-- A run that is obtained has slots, and a fresh bitmap. -/
theorem binAllocRun_some {host : Host} {a c raw : Nat} {s : State τ} (hlt : c < nSmallClasses)
    (hr : (s.bin a c).runs = 0) (hm : host.mmap s.mmapCalls = some raw) :
    ∃ s' addr n, binAllocRun host a c s = (s.exts + 1, s') ∧ 0 < addr ∧
      (s'.ext (s.exts + 1)).runBitmap = some ⟨addr, List.replicate n 0⟩ ∧
      (s'.ext (s.exts + 1)).runNslots = runCapacity (classInfo c) := by
  obtain ⟨-, hbytes⟩ := run_nonempty c hlt
  obtain ⟨s₁, hext, hbin⟩ : ∃ s₁, extentAlloc host (targetPages (classInfo c)) s =
      (s.exts + 1, s₁) ∧ s₁.bin = s.bin := by
    rw [extentAlloc, mmap, if_neg hbytes, hm]
    exact ⟨_, rfl, rfl⟩
  have hold : (s₁.bin a c).runs = 0 := by rw [hbin]; exact hr
  refine ⟨(binAllocRun host a c s).2, host.newArray s₁.arrays,
    (runCapacity (classInfo c) + 7) / 8, ?_, host.newArray_pos _, ?_, ?_⟩
  · simp only [binAllocRun, hext, hold, if_true, if_neg (Nat.succ_ne_zero _)]
  · simp only [binAllocRun, hext, hold, if_true, if_neg (Nat.succ_ne_zero _), State.modifyExt,
      Function.update_self, State.modifyBin, Nat.add_sub_cancel]
  · simp only [binAllocRun, hext, hold, if_true, if_neg (Nat.succ_ne_zero _), State.modifyExt,
      Function.update_self]

theorem findSlot_fresh {addr n k : Nat} (h : 0 < addr) (hk : 0 < k) :
    findSlot ⟨addr, List.replicate n 0⟩ k 0 = none := by
  obtain ⟨k, rfl⟩ := Nat.exists_eq_succ_of_ne_zero (Nat.ne_of_gt hk)
  rw [findSlot, isFree_fresh h]
  rfl

omit [DecidableEq τ] in
/-- A bin that gets its run reads the fresh bitmap, and faults. -/
theorem binAlloc_faults {host : Host} {a c raw : Nat} {s : State τ} (hlt : c < nSmallClasses)
    (hc : (s.bin a c).runcur = 0) (hr : (s.bin a c).runs = 0)
    (hm : host.mmap s.mmapCalls = some raw) : binAlloc host a c s = none := by
  obtain ⟨s', addr, n, hrun, hpos, hb, hn⟩ := binAllocRun_some hlt hr hm
  rw [binAlloc, chooseRun_bare hc hr, hrun]
  simp only [if_neg (Nat.succ_ne_zero _)]
  rw [takeSlot]
  simp only [State.modifyBin, hb, hn, Option.bind_some,
    findSlot_fresh hpos (run_nonempty c hlt).1, Option.bind_none]

variable {w : World τ}

theorem smallAlloc_bare {host : Host} {t : τ} {c : Nat} (h : Bare w) {tc : Tcache}
    (ht : w.state.tcache t = some tc) :
    smallAlloc host t c w.state = binAlloc host tc.arenaIdx c w.state := by
  have hs := h.tcache t tc ht c
  have hsame : Function.update w.state.tcache t (some tc) = w.state.tcache := by
    rw [← ht]; exact Function.update_eq_self ..
  simp only [smallAlloc, ht, tcacheAlloc, hs]
  simp [hsame]

theorem jeMalloc_small {host : Host} {t : τ} {n : Nat} {s : State τ} (hn : n ≤ smallMax) :
    jeMalloc host t n s = smallAlloc host t (sizeToClass n) (jeInit t s) := by
  have hmax : smallMax = 14336 := rfl
  have hhuge : hugeThreshold = 2097152 := rfl
  have h1 : ¬ hugeThreshold ≤ (if n = 0 then 1 else n) := by split <;> omega
  have h2 : ¬ smallMax < (if n = 0 then 1 else n) := by split <;> omega
  have hclass : sizeToClass (if n = 0 then 1 else n) = sizeToClass n := by
    split
    case isTrue h0 => subst h0; rfl
    case isFalse => rfl
  simp only [jeMalloc, if_neg h1, if_neg h2, hclass]

theorem Bare.step {host : Host} {c : SmallCall τ} (h : Bare w) (hl : c.Legal w)
    (hr : Refused host w c) :
    ∃ w', w.step host c = some w' ∧ Bare w' ∧ NotLive host w c := by
  cases c with
  | free t p =>
    rw [SmallCall.Legal, h.live] at hl
    exact absurd hl List.not_mem_nil
  | malloc t n =>
    have hi := h.init t
    have hnone : ∃ s', jeMalloc host t n w.state = some (none, s') ∧ Bare ⟨s', w.live⟩ := by
      rw [jeMalloc_small hl]
      cases ht : (jeInit t w.state).tcache t with
      | none => exact ⟨jeInit t w.state, by simp only [smallAlloc, ht], hi⟩
      | some tc =>
        have hm : host.mmap (jeInit t w.state).mmapCalls = none := by
          rw [jeInit_mmapCalls]
          rcases hr with hr | hr
          · rw [ht] at hr; cases hr
          · exact hr
        rw [smallAlloc_bare hi ht, binAlloc_refused (hi.runcur _ _) (hi.runs _ _) hm]
        exact ⟨_, rfl, hi.exts, hi.live, hi.tcache, hi.runcur, hi.runs⟩
    obtain ⟨s', he, hb⟩ := hnone
    refine ⟨⟨s', w.live⟩, by simp [World.step, he], hb, fun r e p hp => ?_⟩
    rw [he] at e
    rw [← Option.some.inj e] at hp
    cases hp

theorem Bare.step_faults {host : Host} {c : SmallCall τ} (h : Bare w) (hl : c.Legal w)
    (hr : ¬ Refused host w c) : w.step host c = none := by
  cases c with
  | free t p => exact absurd trivial hr
  | malloc t n =>
    rw [Refused, not_or] at hr
    obtain ⟨tc, ht⟩ := Option.ne_none_iff_exists'.mp hr.1
    obtain ⟨raw, hm⟩ := Option.ne_none_iff_exists'.mp hr.2
    have hi := h.init t
    rw [← jeInit_mmapCalls t w.state] at hm
    rw [World.step, jeMalloc_small hl, smallAlloc_bare hi ht,
      binAlloc_faults (sizeToClass_lt hl) (hi.runcur _ _) (hi.runs _ _) hm]
    rfl

theorem sound_iff_of_bare {host : Host} {calls : List (SmallCall τ)} (h : Bare w) :
    w.Sound host calls ↔ w.AllRefused host calls := by
  induction calls generalizing w with
  | nil => exact ⟨fun _ => trivial, fun _ => h.books⟩
  | cons c cs ih =>
    rw [World.Sound, World.AllRefused]
    constructor
    · rintro ⟨-, hs⟩ hl
      obtain ⟨-, w', hw', hsound⟩ := hs hl
      have hr : Refused host w c := by
        by_contra hr
        rw [h.step_faults hl hr] at hw'
        cases hw'
      obtain ⟨v, hv, hb, -⟩ := h.step hl hr
      refine ⟨hr, fun v' hv' => ?_⟩
      rw [hv'] at hv hw'
      obtain rfl := Option.some.inj hv
      obtain rfl := Option.some.inj hw'
      exact (ih hb).mp hsound
    · intro ha
      refine ⟨h.books, fun hl => ?_⟩
      obtain ⟨hr, hrest⟩ := ha hl
      obtain ⟨v, hv, hb, hn⟩ := h.step hl hr
      exact ⟨hn, v, hv, (ih hb).mpr (hrest v hv)⟩

/-- Along any small calls the books of the runs are right, no bitmap is read out of bounds and
no slot is handed out twice exactly when every allocation is refused its run. -/
theorem sound_iff_refused (host : Host) (calls : List (SmallCall τ)) :
    (World.start τ).Sound host calls ↔ (World.start τ).AllRefused host calls :=
  sound_iff_of_bare bare_start

/-- A kernel that always answers. -/
def eagerHost : Host := ⟨fun k => some (1048576 * (k + 1)), fun k => 16 * (k + 1), Host.spaced_pos⟩

/-- The first small allocation of a process faults. -/
theorem first_small_malloc_faults :
    ¬ (World.start Nat).Sound eagerHost [.malloc 0 100] ∧
      jeMalloc eagerHost 0 100 (State.start Nat) = none := by
  have hf : jeMalloc eagerHost 0 100 (State.start Nat) = none := by decide +kernel
  refine ⟨fun h => ?_, hf⟩
  obtain ⟨-, w', hw', -⟩ := h.2 (show 100 ≤ smallMax by decide)
  simp [World.step, World.start, hf] at hw'

end MyMalloc.Jemalloc
