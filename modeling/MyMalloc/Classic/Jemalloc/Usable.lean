import MyMalloc.Classic.Jemalloc.Bookkeeping

/- What `je_malloc` gives for a request.

   Only one of the three regimes keeps its promise. A large request has an
   extent of its own, entered in the rtree with its size. A small request that
   reaches a run faults, and the class table ends at 8192 bytes while requests
   up to 14336 are looked up in it. A huge request is not entered in the rtree,
   so its usable size is the constant 2 MiB, or, because the rtree has one
   entry for all pages 256 MiB apart, the size of another extent.
   `jeMalloc_neverUnder_iff` puts this together for every request and every state. -/
namespace MyMalloc.Jemalloc

/-! ## Size classes -/

theorem classInfo_le_last : ∀ i ≤ 35, classInfo i ≤ classInfo 35 := by decide

/-- The class chosen covers a small request exactly up to the last row of the table. -/
theorem le_sizeToClass_iff {n : Nat} (hn : n ≤ smallMax) :
    n ≤ classToSize (sizeToClass n) ↔ n ≤ 8192 := by
  have hlt := sizeToClass_lt hn
  rw [classToSize, if_neg (Nat.not_le.mpr hlt)]
  constructor
  · intro h
    have h36 : nSmallClasses = 36 := rfl
    have : classInfo (sizeToClass n) ≤ classInfo 35 := classInfo_le_last _ (by omega)
    have : classInfo 35 = 8192 := by decide
    omega
  · intro h
    have hmax : smallMax = 14336 := rfl
    have hle : ¬ smallMax < (if n = 0 then 1 else n) := by split <;> omega
    simp only [sizeToClass, if_neg hle]
    have hlast : (if n = 0 then 1 else n) ≤ classInfo (nSmallClasses - 1) := by
      have : classInfo (nSmallClasses - 1) = 8192 := by decide
      split <;> omega
    have hn1 : n ≤ if n = 0 then 1 else n := by split <;> omega
    exact Nat.le_trans hn1 (le_bisect (by decide) (by decide) hlast)

/-! ## Runs -/

variable {τ : Type} [DecidableEq τ]

inductive Request (τ : Type) where
  | malloc (t : τ) (n : Nat)
  | calloc (t : τ) (n size : Nat)
  | realloc (t : τ) (p n : Nat)
  | memalign (t : τ) (alignment n : Nat)
  | free (t : τ) (p : Nat)

def Request.exec (host : Host) : Request τ → State τ → Option (Option Nat × State τ)
  | .malloc t n, s => jeMalloc host t n s
  | .calloc t n size, s => jeCalloc host t n size s
  | .realloc t p n, s => jeRealloc host t p n s
  | .memalign t a n, s => jeMemalign host t a n s
  | .free t p, s => (jeFree t p s).map (fun s => (none, s))

def Request.heldAfter : Request τ → Option Nat → List Nat → List Nat
  | .realloc _ p n, r, held =>
    if n ≠ 0 ∧ r = none then held else r.toList ++ held.filter (· ≠ p)
  | .free _ p, _, held => held.filter (· ≠ p)
  | _, r, held => r.toList ++ held

/-- Only a block that is held is freed or resized. -/
def Request.Legal : Request τ → List Nat → Prop
  | .realloc _ p _, held => p ∈ held
  | .free _ p, held => p ∈ held
  | _, _ => True

/-- The states that calls lead to, with the blocks held. -/
inductive Reached (host : Host) : State τ → List Nat → Prop where
  | start : Reached host (State.start τ) []
  | step {s s' : State τ} {held : List Nat} {r : Option Nat} (h : Reached host s held)
      (q : Request τ) (legal : q.Legal held) (exec : q.exec host s = some (r, s')) :
      Reached host s' (q.heldAfter r held)

/-- All bytes of the block are mapped. -/
def Backed (p n : Nat) (s : State τ) : Prop := ∀ a, p ≤ a → a < p + n → s.mapped a = true

/-- The call returns: null, or a block of at least `n` usable and mapped bytes. -/
def Covers (r : Option (Option Nat × State τ)) (n : Nat) : Prop :=
  ∃ res s, r = some (res, s) ∧ ∀ p, res = some p → n ≤ jeUsableSize p s ∧ Backed p n s

/-- No thread gets too little for a request of `n` bytes, in any state of a run. -/
def NeverUnder (n : Nat) : Prop :=
  ∀ (host : Host) (s : State Nat) (held : List Nat) (t : Nat), Reached host s held →
    Covers (jeMalloc host t n s) n

/-! ## Large requests -/

theorem rtreeSet_first (addr g : Nat) {pages : Nat} (h : 0 < pages) (r : Nat → Nat) :
    rtreeSet addr g pages r (rtreeSlot addr) = g := by
  obtain ⟨n, rfl⟩ := Nat.exists_eq_succ_of_ne_zero (Nat.ne_of_gt h)
  clear h
  induction n with
  | zero =>
    have e : rtreeSlot addr = rtreeSlot (addr + 0 * pageSize) := by rw [Nat.zero_mul, Nat.add_zero]
    rw [rtreeSet, e, Function.update_self]
  | succ n ih =>
    rw [rtreeSet]
    by_cases e : rtreeSlot addr = rtreeSlot (addr + (n + 1) * pageSize)
    · rw [e, Function.update_self]
    · rw [Function.update_of_ne e]
      exact ih

theorem largePages_spec {n : Nat} (h1 : 0 < n) (h2 : n < hugeThreshold) :
    0 < largePages n ∧ n ≤ extentBytes (largePages n) := by
  have hhuge : hugeThreshold = 2097152 := rfl
  have hpage : pageSize = 4096 := rfl
  have hp : largePages n = (n + 4095) / 4096 := by
    rw [largePages, hpage, Nat.mod_eq_of_lt (by omega), Nat.shiftRight_eq_div_pow]
  have hb : extentBytes (largePages n) = largePages n * 4096 := by
    have h4 : largePages n ≤ 512 := by omega
    rw [extentBytes, hpage, show (4096 - 1 : Nat) = 2^12 - 1 from rfl,
      maskOff_two_pow (Nat.mod_lt _ (by decide)) (by omega)]
    omega
  rw [hb, hp]
  omega

omit [DecidableEq τ] in
/-- `extent_alloc` fails, or returns a new extent that the rtree knows by its first page. -/
theorem extentAlloc_spec (host : Host) {pages : Nat} (s : State τ) (hp : 0 < pages)
    (hb : extentBytes pages ≠ 0) :
    (extentAlloc host pages s).1 = 0 ∨
    ∃ addr s', extentAlloc host pages s = (s.exts + 1, s') ∧
      s'.ext (s.exts + 1) = { zeroExtent with
        addr := addr, size := extentBytes pages, usize := extentBytes pages } ∧
      s'.rtreeGet addr = s.exts + 1 ∧ Backed addr (extentBytes pages) s' := by
  rw [extentAlloc, mmap, if_neg hb]
  cases hm : host.mmap s.mmapCalls with
  | none => exact .inl rfl
  | some addr =>
    refine .inr ⟨addr, _, rfl, Function.update_self .., rtreeSet_first _ _ hp _, ?_⟩
    intro a h1 h2
    exact if_pos ⟨h1, h2⟩

omit [DecidableEq τ] in
theorem modifyExt_self (s : State τ) (g : Nat) (f : Extent → Extent) :
    (s.modifyExt g f).ext g = f (s.ext g) := Function.update_self ..

omit [DecidableEq τ] in
theorem largeAlloc_covers (host : Host) {n : Nat} (s : State τ) (h1 : 0 < n)
    (h2 : n < hugeThreshold) : Covers (some (largeAlloc host n s)) n := by
  obtain ⟨hpages, hbytes⟩ := largePages_spec h1 h2
  refine ⟨(largeAlloc host n s).1, (largeAlloc host n s).2, rfl, ?_⟩
  rcases extentAlloc_spec host s hpages (by omega) with h0 | ⟨addr, s', hr, hext, hget, hback⟩
  · simp only [largeAlloc, if_pos h0]
    exact nofun
  · have hself : (s'.modifyExt (s.exts + 1) ({ · with usize := n })).ext (s.exts + 1) =
        { zeroExtent with addr := addr, size := extentBytes (largePages n), usize := n } := by
      rw [modifyExt_self, hext]
    simp only [largeAlloc, hr, if_neg (Nat.succ_ne_zero _), hself]
    intro p hp
    obtain rfl := Option.some.inj hp
    refine ⟨?_, fun a ha hlt => hback a ha (by omega)⟩
    have hget' : (s'.modifyExt (s.exts + 1) ({ · with usize := n })).rtreeGet addr =
      s.exts + 1 := hget
    simp only [jeUsableSize, hget', hself, if_neg (Nat.succ_ne_zero _)]
    exact Nat.le_refl n

/-! ## The other requests -/

/-- Two answers 256 MiB apart, and the same again. -/
def aliasHost : Host :=
  ⟨fun k => some (1048576 + 268435456 * k), fun k => 16 * (k + 1), Host.spaced_pos⟩

/-- The state after one large allocation. -/
def afterLarge : State Nat := (largeAlloc aliasHost 15000 (jeInit 0 (State.start Nat))).2

theorem reached_afterLarge : Reached aliasHost afterLarge [1048576] :=
  .step .start (.malloc 0 15000) trivial (r := some 1048576) rfl

/-- A huge request that is granted memory next to it is reported with 15000 bytes. -/
theorem not_covers_huge {n : Nat} (h1 : hugeThreshold ≤ n) (h2 : n ≤ 2^64 - pageSize) :
    ¬ Covers (jeMalloc aliasHost 0 n afterLarge) n := by
  have hhuge : hugeThreshold = 2097152 := rfl
  have hpage : pageSize = 4096 := rfl
  have h0 : ¬ n = 0 := by omega
  have hsize : ¬ maskOff ((n + (pageSize - 1)) % 2^64) (pageSize - 1) = 0 := by
    rw [hpage, show (4096 - 1 : Nat) = 2^12 - 1 from rfl,
      maskOff_two_pow (Nat.mod_lt _ (by decide)) (by omega)]
    omega
  rintro ⟨res, s, he, hc⟩
  obtain ⟨s₁, hres, htree, hext⟩ : ∃ s₁, jeMalloc aliasHost 0 n afterLarge =
      some (some 269484032, s₁) ∧ s₁.rtree = afterLarge.rtree ∧ s₁.ext = afterLarge.ext := by
    simp only [jeMalloc, if_neg h0, if_pos h1, hugeAlloc, mmap, if_neg hsize]
    exact ⟨_, rfl, rfl, rfl⟩
  rw [hres] at he
  obtain ⟨rfl, rfl⟩ := Prod.mk.inj (Option.some.inj he)
  have hle := (hc _ rfl).1
  have husable : jeUsableSize 269484032 afterLarge = 15000 := by decide +kernel
  rw [jeUsableSize, State.rtreeGet, htree, hext] at hle
  exact absurd (Nat.le_trans hle (Nat.le_of_eq husable)) (by omega)

theorem not_covers_small {n : Nat} (h : n ≤ smallMax) :
    ¬ Covers (jeMalloc eagerHost 0 n (State.start Nat)) n := by
  rintro ⟨res, s, he, -⟩
  have hf : (World.start Nat).step eagerHost (.malloc 0 n) = none := bare_start.step_faults h ?_
  · simp [World.step, World.start, he] at hf
  · simp [Refused, World.start, State.start, jeInit, eagerHost]

omit [DecidableEq τ] in
theorem hugeAlloc_wrap (host : Host) {n : Nat} (s : State τ) (h1 : 2^64 - pageSize < n)
    (h2 : n < 2^64) : (hugeAlloc host n s).1 = none := by
  have hpage : pageSize = 4096 := rfl
  have hsize : maskOff ((n + (pageSize - 1)) % 2^64) (pageSize - 1) = 0 := by
    rw [hpage, show (4096 - 1 : Nat) = 2^12 - 1 from rfl,
      maskOff_two_pow (Nat.mod_lt _ (by decide)) (by omega)]
    omega
  rw [hugeAlloc, mmap, if_pos hsize]
  rfl

theorem jeMalloc_covers (host : Host) (s : State τ) (t : τ) {n : Nat} (hn : n < 2^64)
    (h : smallMax < n ∧ n < hugeThreshold ∨ 2^64 - pageSize < n) :
    Covers (jeMalloc host t n s) n := by
  have hhuge : hugeThreshold = 2097152 := rfl
  have hpage : pageSize = 4096 := rfl
  have h0 : ¬ n = 0 := by omega
  simp only [jeMalloc, if_neg h0]
  rcases h with ⟨h1, h2⟩ | h
  · rw [if_neg (by omega), if_pos h1]
    exact largeAlloc_covers host _ (by omega) h2
  · rw [if_pos (by omega)]
    refine ⟨(hugeAlloc host n (jeInit t s)).1, (hugeAlloc host n (jeInit t s)).2, rfl,
      fun p hp => ?_⟩
    rw [hugeAlloc_wrap host _ h hn] at hp
    cases hp

/-- A request is never under-allocated exactly if it is a large one, or so near to 2^64 that
it is always refused. Of the small ones, the class covers those up to 8192 bytes. -/
theorem jeMalloc_neverUnder_iff (n : UInt64) :
    (NeverUnder n.toNat ↔
      smallMax < n.toNat ∧ n.toNat < hugeThreshold ∨ 2^64 - pageSize < n.toNat) ∧
      (n.toNat ≤ smallMax → (n.toNat ≤ classToSize (sizeToClass n.toNat) ↔ n.toNat ≤ 8192)) := by
  have hn := n.toNat_lt
  refine ⟨⟨fun h => ?_, fun h host s held t _ => jeMalloc_covers host s t hn h⟩,
    le_sizeToClass_iff⟩
  by_contra hc
  rw [not_or, not_and, Nat.not_lt, Nat.not_lt] at hc
  by_cases hs : n.toNat ≤ smallMax
  · exact not_covers_small hs (h eagerHost _ [] 0 .start)
  · exact not_covers_huge (hc.1 (by omega)) hc.2 (h aliasHost _ _ 0 reached_afterLarge)

/-- 3 MiB in a new process are reported as 2 MiB, and the class of 10000 bytes has 8192. -/
theorem malloc_3MiB_under :
    (jeMalloc eagerHost 0 3145728 (State.start Nat)).map
        (fun r => (r.1, jeUsableSize 1048576 r.2)) = some (some 1048576, 2097152) ∧
      classToSize (sizeToClass 10000) = 8192 ∧
      ¬ Covers (jeMalloc eagerHost 0 100 (State.start Nat)) 100 :=
  ⟨by decide +kernel, by decide +kernel, not_covers_small (by decide)⟩

end MyMalloc.Jemalloc
