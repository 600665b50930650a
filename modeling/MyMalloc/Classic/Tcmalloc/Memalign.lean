import MyMalloc.Classic.Tcmalloc.SpanBounds
import MyMalloc.Classic.Tcmalloc.Runs

/- Aligned blocks, and what `tc_realloc` makes of them.

   `tc_memalign` takes a span for `size + alignment` bytes and rounds its address
   up. Nothing remembers how far: `tc_usable_size` reports the length of the whole
   span, and `tc_realloc` copies that many bytes from the pointer on. That is
   right as long as the pointer is the first byte of the span. It is for an
   alignment of at most a page; for a larger one it depends on where the kernel
   put the span (`memalign_sound_iff`). The other conditions are those of the
   sums: `size + alignment` must not wrap, and `tc_malloc` must cover what
   `tc_realloc` asks it for.

   The block may be resized long after it was allocated. Until then its span stays
   what it was (`Inv.step_keeps`, `Later.kept`). -/
namespace MyMalloc.Tcmalloc

open PageHeap

variable {τ : Type} {s s' : State τ} {held : List Nat} {place : Nat → Option Nat}
  {L : Nat → List Nat} {host : Host}

/-! ## A span that stays -/

theorem Quiet.insertRange (s : State τ) (c : Nat) (chain : List Nat) :
    Quiet s (s.putLists c (insertRange chain (s.lists c))) :=
  ⟨rfl, _, (insertRange_moves chain (s.lists c)).1, rfl⟩

theorem Quiet.scavenge (tc : ThreadCache) (s : State τ) : Quiet s (scavenge tc s).2 := by
  have hfold : ∀ (is : List Nat) (p : ThreadCache × State τ), Quiet p.2 (is.foldl scavengeClass p).2 := by
    intro is
    induction is with
    | nil => exact fun p => .of_heap rfl rfl
    | cons i is ih =>
      intro p
      refine Quiet.trans ?_ (ih (scavengeClass p i))
      simp only [scavengeClass]
      split
      · exact Quiet.insertRange p.2 i _
      · exact .of_heap rfl rfl
  have hall := hfold (List.range kNumClasses) (tc, s)
  rw [Tcmalloc.scavenge]
  generalize (List.range kNumClasses).foldl scavengeClass (tc, s) = r at hall ⊢
  exact hall

theorem Quiet.cacheFree (c ptr : Nat) (tc : ThreadCache) (s : State τ) : Quiet s (cacheFree c ptr tc s).2 := by
  have hfirst : Quiet s (if tc.maxCount c ≤ (tc.list c).length then Tcmalloc.scavenge tc s else (tc, s)).2 := by
    split
    · exact Quiet.scavenge tc s
    · exact .of_heap rfl rfl
  simp only [Tcmalloc.cacheFree]
  generalize (if tc.maxCount c ≤ (tc.list c).length then Tcmalloc.scavenge tc s else (tc, s)) = r at hfirst ⊢
  split
  · exact hfirst.trans (Quiet.scavenge _ _)
  · exact hfirst

/-- Block `p` is in span `g`, which is no span of a class. -/
structure InLarge (h : PageHeap) (p g : Nat) : Prop where
  live : h.Live g
  has : (h.span g).Has (pageNumber p)
  large : kNumClasses ≤ (h.span g).sizeClass

theorem Kept.inLarge {h h' : PageHeap} {p g : Nat} (k : Kept h h' g) (b : InLarge h p g) : InLarge h' p g :=
  ⟨k.live, k.has.mpr b.has, by rw [k.sizeClass]; exact b.large⟩

theorem Inv.inUse_of_held (inv : Inv s held place L) {p g : Nat} (hp : p ∈ held) (b : InLarge s.heap p g) :
    place g = none := by
  obtain ⟨x, hx, hu, hax⟩ := inv.within p hp
  rcases eq_or_ne g x with e | hne
  · rw [e]
    exact hu
  · exact absurd rfl (inv.heap.apart g x _ _ b.live hx hne b.has hax)

section threads
variable [DecidableEq τ]

theorem Inv.malloc_kept (inv : Inv s held place L) (t : τ) {n g : Nat} (hfit : MallocFits host s n)
    (hl : s.heap.Live g) (hu : place g = none) : Kept s.heap (Tcmalloc.tcMalloc host t n s).2.heap g := by
  obtain ⟨_, _, -, -, hkeeps⟩ := inv.tcMalloc t hfit.1 hfit.2
  exact (hkeeps g hl hu).1

theorem Inv.tcFree_kept (inv : Inv s held place L) {t : τ} {p q g : Nat} (hp : p ∈ held) (hq : q ∈ held)
    (hne : q ≠ p) (hfit : FreeFits s t q) (b : InLarge s.heap p g) : Kept s.heap (Tcmalloc.tcFree t q s).heap g := by
  obtain ⟨x, hlx, hux, hax⟩ := inv.within q hq
  have hget := inv.heap.mapped x _ hlx hux (Nat.ne_of_gt hlx.1) hax
  have hx0 : ¬ x = 0 := Nat.ne_of_gt hlx.1
  rw [FreeFits, hget] at hfit
  simp only [Tcmalloc.tcFree, hget, if_neg hx0]
  by_cases hkx : kNumClasses ≤ (s.heap.span x).sizeClass
  · -- the span of `q` would hold both blocks if it were `g`
    have hgx : g ≠ x := by
      rintro rfl
      exact hne (inv.alone q hq p hp g b.live b.large hax b.has)
    rw [if_pos hkx]
    simp only [Tcmalloc.largeFree, hget, if_neg hx0]
    exact ⟨⟨b.live.1, b.live.2.1, fun hm => (List.mem_cons.mp hm).elim hgx b.live.2.2⟩, rfl, rfl, rfl⟩
  · obtain ⟨tc, htc⟩ := Option.isSome_iff_exists.mp (hfit (Nat.not_le.mp hkx))
    rw [if_neg hkx]
    simp only [htc]
    exact (Quiet.cacheFree _ q tc s).kept b.live

/-- The block is freed by the call, or moved. -/
def Request.Releases : Request τ → Nat → Prop
  | .realloc _ p' _, p => p' = p
  | .free _ p', p => p' = p
  | _, _ => False

theorem Inv.realloc_kept (inv : Inv s held place L) {t : τ} {p q n g : Nat} (hp : p ∈ held) (hq : q ∈ held)
    (hne : q ≠ p) (hfit : MallocFits host s n) (hc : (s.cache t).isSome) (b : InLarge s.heap p g) :
    Kept s.heap (tcRealloc host t q n s).2.heap g := by
  simp only [tcRealloc]
  split
  · exact inv.tcFree_kept hp hq hne (fun _ => hc) b
  split
  · exact Kept.refl b.live
  have hkm := inv.malloc_kept t hfit b.live (inv.inUse_of_held hp b)
  split
  · exact hkm
  · -- the new block is there before the old one is freed
    obtain ⟨place', L', hinv, -⟩ := inv.tcMalloc t hfit.1 hfit.2
    exact hkm.trans (hinv.tcFree_kept hp hq hne (fun _ => tcMalloc_cache host t n s hc) (hkm.inLarge b))

theorem Inv.step_keeps (inv : Inv s held place L) {q : Request τ} (legal : q.Legal held) (fits : q.Fits host s)
    {p g : Nat} (hp : p ∈ held) (hrel : ¬ q.Releases p) (b : InLarge s.heap p g) :
    Kept s.heap (q.exec host s).2.heap g := by
  have hl := b.live
  have hu := inv.inUse_of_held hp b
  cases q with
  | malloc t n => exact inv.malloc_kept t fits hl hu
  | calloc t n size =>
    simp only [Request.exec, tcCalloc]
    split
    · exact Kept.refl hl
    · exact inv.malloc_kept t fits hl hu
  | realloc t q n => exact inv.realloc_kept hp legal hrel fits.1 fits.2 b
  | memalign t a n =>
    simp only [Request.exec, tcMemalign]
    by_cases h16 : a ≤ 16
    · have hfit : MallocFits host s n := by simpa only [Request.Fits, if_pos h16] using fits
      simp only [if_pos h16]
      exact inv.malloc_kept t hfit hl hu
    · obtain ⟨hle, hroom⟩ : n + a ≤ 2^64 - kPageSize ∧ Room host s (largePages (n + a)) := by
        simpa only [Request.Fits, if_neg h16] using fits
      simp only [if_neg h16]
      split
      · exact Kept.refl hl
      · have h8 : kPageSize = 8192 := rfl
        rw [Nat.mod_eq_of_lt (show n + a < 2^64 by omega)]
        obtain ⟨_, _, -, -, hkeeps⟩ := inv.largeAlloc (by omega) hle hroom
        exact (hkeeps g hl hu).1
  | free t q => exact inv.tcFree_kept hp legal hrel fits b

/-- What is reached by further calls, none of which releases block `p`. -/
inductive Later (host : Host) (p : Nat) (s : State τ) (held : List Nat) : State τ → List Nat → Prop where
  | now : Later host p s held s held
  | step {s' : State τ} {held' : List Nat} (h : Later host p s held s' held') (q : Request τ)
      (legal : q.Legal held') (fits : q.Fits host s') (keeps : ¬ q.Releases p) :
      Later host p s held (q.exec host s').2 (q.heldAfter (q.exec host s').1 held')

theorem Later.reached {p : Nat} {held' : List Nat} (hr : Reached host s held)
    (h : Later host p s held s' held') : Reached host s' held' := by
  induction h with
  | now => exact hr
  | step _ q legal fits _ ih => exact .step ih q legal fits

omit [DecidableEq τ] in
theorem Request.mem_heldAfter {q : Request τ} {p : Nat} (hrel : ¬ q.Releases p) (hp : p ∈ held) (r : Option Nat) :
    p ∈ q.heldAfter r held := by
  have hout : ∀ p', p' ≠ p → p ∈ held.filter (· ≠ p') := fun p' hne => List.mem_filter.mpr ⟨hp, by simpa using hne.symm⟩
  cases q with
  | malloc t n => exact List.mem_append_right _ hp
  | calloc t n size => exact List.mem_append_right _ hp
  | memalign t a n => exact List.mem_append_right _ hp
  | free t p' => exact hout p' hrel
  | realloc t p' n =>
    simp only [Request.heldAfter]
    split
    · exact hp
    · exact List.mem_append_right _ (hout p' hrel)

theorem Later.kept {p g : Nat} {held' : List Nat} (hr : Reached host s held) (h : Later host p s held s' held')
    (hp : p ∈ held) (b : InLarge s.heap p g) : Kept s.heap s'.heap g ∧ p ∈ held' := by
  induction h with
  | now => exact ⟨Kept.refl b.live, hp⟩
  | step hrun q legal fits hrel ih =>
    obtain ⟨hkept, hp'⟩ := ih
    obtain ⟨place, L, inv⟩ := (hrun.reached hr).inv
    exact ⟨hkept.trans (inv.step_keeps legal fits hp' hrel (hkept.inLarge b)), Request.mem_heldAfter hrel hp' _⟩

/-! ## The copy of tc_realloc -/

/-- A call `memcpy(dst, src, len)`. -/
structure Copy where
  dst : Nat
  src : Nat
  len : Nat

/-- `tc_realloc`, with the copy it makes. -/
def tcReallocCopy (host : Host) (t : τ) (ptr size : Nat) (s : State τ) : Option Nat × Option Copy × State τ :=
  if size = 0 then (none, none, tcFree t ptr s)
  else
    let oldSize := tcUsableSize ptr s
    if size ≤ oldSize then (some ptr, none, s)
    else
      let r := tcMalloc host t size s
      match r.1 with
      | none => (none, none, r.2)
      | some np => (some np, some ⟨np, ptr, if oldSize < size then oldSize else size⟩, tcFree t ptr r.2)

theorem tcReallocCopy_forget (host : Host) (t : τ) (ptr size : Nat) (s : State τ) :
    ((tcReallocCopy host t ptr size s).1, (tcReallocCopy host t ptr size s).2.2) = tcRealloc host t ptr size s := by
  simp only [tcReallocCopy, tcRealloc]
  split
  · rfl
  split
  · rfl
  generalize tcMalloc host t size s = r
  obtain ⟨q, s'⟩ := r
  cases q <;> rfl

/-- The `n` bytes from `p` on lie in the span. -/
def Span.Holds (sp : Span) (p n : Nat) : Prop :=
  pageAddr sp.start ≤ p ∧ p + n ≤ pageAddr sp.start + sp.length * kPageSize

/-- `tc_realloc(p, n)` returns null or leaves the bytes of block `p` where they are, or it copies at
    least `min size n` of them to the block it returns, out of span `g` and into no other block. -/
def Preserves (host : Host) (t : τ) (p size n g : Nat) (s : State τ) : Prop :=
  ∀ q, (tcReallocCopy host t p n s).1 = some q →
    (q = p ∧ (tcReallocCopy host t p n s).2.1 = none) ∨
    ∃ c, (tcReallocCopy host t p n s).2.1 = some c ∧ c.src = p ∧ c.dst = q ∧ min size n ≤ c.len ∧
      (s.heap.span g).Holds c.src c.len ∧ c.len ≤ tcUsableSize q (tcMalloc host t n s).2

/-- What a caller may do with an aligned block `p` of `size` bytes in span `g`. -/
structure AlignedBlock (host : Host) (alignment size n p g : Nat) (s : State τ) (held : List Nat) : Prop where
  aligned : alignment ∣ p
  room : (s.heap.span g).Holds p size
  usable : (s.heap.span g).Holds p (tcUsableSize p s)
  resized : ∀ s' held' t, Later host p s held s' held' → Preserves host t p size n g s'

end threads

/-! ## A block at the start of its span -/

theorem alignPtr_two_pow {p k : Nat} (hk : k < 64) (hlt : p + 2^k - 1 < 2^64) :
    alignPtr p (2^k) = (p + 2^k - 1) - (p + 2^k - 1) % 2^k := by
  rw [alignPtr, Nat.mod_eq_of_lt hlt, maskOff_two_pow hlt (Nat.le_of_lt hk)]

theorem le_alignPtr {p k : Nat} (hk : k < 64) (hlt : p + 2^k - 1 < 2^64) : p ≤ alignPtr p (2^k) := by
  have hmod := Nat.mod_lt (p + 2^k - 1) (Nat.two_pow_pos k)
  rw [alignPtr_two_pow hk hlt]
  omega

section threads
variable [DecidableEq τ]

theorem tcMemalign_two_pow {k size : Nat} (h16 : 16 < 2^k) (t : τ) (s : State τ) :
    tcMemalign host t (2^k) size s = ((largeAlloc host ((size + 2^k) % 2^64) s).1.map (alignPtr · (2^k)),
      (largeAlloc host ((size + 2^k) % 2^64) s).2) := by
  have hmask : 2^k &&& (2^k - 1) = 0 := by
    rw [Nat.and_two_pow_sub_one_eq_mod]
    exact Nat.mod_self _
  simp only [tcMemalign]
  rw [if_neg (by omega), if_neg (by rw [hmask]; exact fun h => h rfl)]

/-- The requests of `tc_realloc` that a large block of `len` bytes or `tc_malloc` covers. -/
def Resizable (len n : Nat) : Prop := n ≤ len ∨ kMaxSize < n ∧ n ≤ 2^64 - kPageSize

end threads

/-! ## When every aligned block is usable -/

/-- Whatever calls came before and after, a block that `tc_memalign` returns can be used. -/
def MemalignSound (alignment size n : Nat) : Prop :=
  ∀ (host : Host) (s : State Nat) (held : List Nat) (t : Nat), Reached host s held →
    Room host s (largePages ((size + alignment) % 2^64)) → ∀ p, p ≠ 0 →
    (tcMemalign host t alignment size s).1 = some p →
    AlignedBlock host alignment size n p (s.allocSpan host (largePages ((size + alignment) % 2^64))).1
      (tcMemalign host t alignment size s).2 (p :: held)

section
variable {k size n : Nat}

/-- The heap after the first large allocation of a process. -/
def firstHeap (raw n : Nat) : PageHeap :=
  ((grownHeap raw (growPages n)).finishAlloc n 1).modify 1 ({ · with sizeClass := kNumClasses, refcount := 1 })

/-- A process whose first block has `pages` pages. -/
def firstLarge (raw pages : Nat) : State Nat := { State.start Nat with heap := firstHeap raw pages, mmapCalls := 1 }

theorem firstLarge_range (raw n : Nat) :
    ((firstLarge raw n).heap.span 1).start = pageNumber raw ∧ ((firstLarge raw n).heap.span 1).length = n := by
  have hgrow : n ≤ growPages n := by
    rw [growPages]
    split <;> omega
  have hrange := finishAlloc_range (h := grownHeap raw (growPages n)) (n := n) (g := 1) (Nat.le_refl _)
  rw [firstLarge, firstHeap, modify_span_self]
  exact ⟨hrange.1, hrange.2.trans (Nat.min_eq_left hgrow)⟩

theorem start_largeAlloc {raw m : Nat} (hmap : host.mmap 0 = some raw) :
    (largeAlloc host m (State.start Nat)).1 = some (pageAddr (pageNumber raw)) ∧
      (largeAlloc host m (State.start Nat)).2 =
        firstLarge raw (largePages m) ∧
      ((State.start Nat).allocSpan host (largePages m)).1 = 1 := by
  have h8 : kPageSize = 8192 := rfl
  have h256 : kMaxPages = 256 := rfl
  have hpages : largePages m < 2^51 := by
    rw [largePages, kPageShift, Nat.shiftRight_eq_div_pow]
    omega
  have hbytes : growPages (largePages m) * kPageSize % 2^64 ≠ 0 := by
    rw [growPages, h8, h256]
    split <;> omega
  have halloc : emptyHeap.allocSpan (largePages m) (host.mmap 0) =
      ((grownHeap raw (growPages (largePages m))).finishAlloc (largePages m) 1, 1) :=
    allocSpan_empty_some (by rw [hmap]; exact if_neg hbytes)
  have hspan : (State.start Nat).allocSpan host (largePages m) =
      (1, { State.start Nat with
        heap := (grownHeap raw (growPages (largePages m))).finishAlloc (largePages m) 1, mmapCalls := 1 }) := by
    simp only [State.allocSpan, State.start, halloc, findFree_empty]
    rfl
  have hlarge : largeAlloc host m (State.start Nat) = (some (pageAddr ((firstLarge raw (largePages m)).heap.span 1).start),
      firstLarge raw (largePages m)) := by
    simp only [largeAlloc, hspan]
    rfl
  rw [hlarge, hspan, (firstLarge_range raw (largePages m)).1]
  exact ⟨rfl, rfl, rfl⟩

theorem room_first {raw n : Nat} (hmap : host.mmap 0 = some raw) (hpage : raw % kPageSize = 0)
    (hin : pageNumber raw + growPages n < 2^51) : Room host (State.start Nat) n := by
  intro raw' e
  obtain rfl : raw = raw' := Option.some.inj (hmap.symm.trans e)
  refine ⟨hpage, hin, fun g l => ?_⟩
  have h1 := l.1
  have h2 : g ≤ 0 := l.2.1
  omega

theorem start_memalign (size : Nat) (h16 : 16 < 2^k) {raw : Nat} (hmap : host.mmap 0 = some raw) (hpage : raw % kPageSize = 0) :
    tcMemalign host 0 (2^k) size (State.start Nat) =
      (some (alignPtr raw (2^k)), firstLarge raw (largePages ((size + 2^k) % 2^64))) := by
  obtain ⟨hsome, hstate, -⟩ := start_largeAlloc (m := (size + 2^k) % 2^64) hmap
  rw [pageAddr_pageNumber, show raw % 8192 = 0 from hpage, Nat.sub_zero] at hsome
  rw [tcMemalign_two_pow h16, hsome, hstate]
  rfl

theorem MemalignSound.first (h : MemalignSound (2^k) size n) (hk : k < 64) (h16 : 16 < 2^k) {raw : Nat}
    (hmap : host.mmap 0 = some raw) (hpage : raw % kPageSize = 0) (hraw : raw ≠ 0)
    (hin : pageNumber raw + growPages (largePages ((size + 2^k) % 2^64)) < 2^51) (hlt : raw + 2^k - 1 < 2^64) :
    AlignedBlock host (2^k) size n (alignPtr raw (2^k)) 1 (firstLarge raw (largePages ((size + 2^k) % 2^64)))
      [alignPtr raw (2^k)] := by
  have hrun := start_memalign size h16 hmap hpage
  have hne : alignPtr raw (2^k) ≠ 0 := fun e0 => by
    have := le_alignPtr hk hlt
    omega
  have hblock := h host _ [] 0 .start (room_first hmap hpage hin) _ hne (congrArg Prod.fst hrun)
  rw [(start_largeAlloc (m := (size + 2^k) % 2^64) hmap).2.2, hrun] at hblock
  exact hblock

end

end MyMalloc.Tcmalloc
