import MyMalloc.Hooks.Routing
import MyMalloc.Lib.Region
import Mathlib.Tactic.Common

/- The bootstrap buffer under every sequence of hook calls: what its blocks are,
   and what `realloc` copies out of them.

   The buffer is a bump allocator whose arithmetic is modulo 2^64. As long as no
   request makes a sum run over, the blocks lie one behind the other; a request
   near 2^64, or an element count times a size beyond 2^64, gets a block that is
   too short. -/
namespace MyMalloc.Hooks

theorem roundUp16_eq (size : Nat) : roundUp16 size = (size + 15) % 2^64 / 16 * 16 := by
  have h : roundUp16 size = (size + 15) % 2^64 - (size + 15) % 2^64 % 2^4 :=
    maskOff_two_pow (x := (size + 15) % 2^64) (k := 4) (Nat.mod_lt _ (by norm_num)) (by norm_num)
  rw [h]
  omega

namespace Service

/-- The bytes of a block: the request rounded up to 16. -/
def size (v : Service) : Nat := (v.call.bytes + 15) / 16 * 16

/-- The bytes the caller asked for. -/
def range (v : Service) : Region := ⟨v.ptr, v.call.bytes⟩

/-- The call did what it should, `older` being the calls served before: null, or a block inside
the buffer, at an offset that is a multiple of 16, apart from the blocks before, with the bytes
asked for, all zero for `calloc`. -/
def Sound (I : Image) (older : List Service) (v : Service) : Prop :=
  v.ptr = 0 ∨
    ((∃ offset, v.ptr = I.buf + offset ∧ 16 ∣ offset ∧ offset + v.call.bytes ≤ bootstrapSize) ∧
      (∀ u ∈ older, u.ptr ≠ 0 → u.range.Apart v.range) ∧
      (∀ n size, v.call = .calloc n size → ∀ a, v.range.Has a → v.mem a = 0))

/-- Nothing runs over: neither the fill level plus the rounded size nor, unless the buffer is
too full anyway, the product of `calloc`. -/
def Fits (v : Service) : Prop :=
  v.offset + v.call.total ≤ 2^64 - 16 ∧
    (v.call.bytes < 2^64 ∨ bootstrapSize < v.offset + (v.call.total + 15) / 16 * 16)

/-- The fill level the call leaves. -/
def next (v : Service) : Nat :=
  if v.ptr = 0 then v.offset else (v.offset + roundUp16 v.call.total) % 2^64

/-- What `serveBootstrap` does at the fill level `v.offset`. -/
structure AsServed (I : Image) (v : Service) : Prop where
  ptr : v.ptr = if bootstrapSize < (v.offset + roundUp16 v.call.total) % 2^64 then 0
    else I.buf + v.offset
  zero : ∀ n size, v.call = .calloc n size → v.ptr ≠ 0 →
    ∀ a, v.ptr ≤ a → a < v.ptr + v.call.total → v.mem a = 0

end Service

/-- Every call served met the fill level the one before left. -/
def Chain (I : Image) : List Service → Nat → Prop
  | [], offset => offset = 0
  | v :: older, offset => Chain I older v.offset ∧ v.AsServed I ∧ offset = v.next

/-- All calls served did what they should. -/
def AllSound (I : Image) : List Service → Prop
  | [] => True
  | v :: older => v.Sound I older ∧ AllSound I older

/-! ## What every run keeps -/

structure Inv (I : Image) (s : State) : Prop where
  chain : Chain I s.served s.bootstrapOffset
  init : s.served ≠ [] → s.initialized = true

section
variable {I : Image} {d : Dlsym} {s : State}

theorem Inv.start (I : Image) (mem : Nat → UInt8) : Inv I (start mem) :=
  ⟨rfl, fun h => absurd rfl h⟩

theorem Inv.congr {s' : State} (hi : Inv I s) (h1 : s'.served = s.served)
    (h2 : s'.bootstrapOffset = s.bootstrapOffset) (h3 : s.initialized = true → s'.initialized = true) :
    Inv I s' := by
  constructor
  · rw [h1, h2]
    exact hi.chain
  · rw [h1]
    exact fun h => h3 (hi.init h)

/-- What serving a call changes. -/
structure Serves (I : Image) (c : AllocCall) (s s' : State) (v : Service) : Prop where
  call : v.call = c
  offset : v.offset = s.bootstrapOffset
  asServed : v.AsServed I
  served : s'.served = v :: s.served
  next : s'.bootstrapOffset = v.next
  initialized : s'.initialized = s.initialized
  active : s'.bootstrapActive = s.bootstrapActive
  copies : s'.copies = s.copies

theorem serveBootstrap_spec (c : AllocCall) (s : State) :
    ∃ v, Serves I c s (serveBootstrap I c s).2 v ∧ (serveBootstrap I c s).1 = v.ptr := by
  have hpos := I.buf_pos
  refine ⟨⟨c, s.bootstrapOffset, (serveBootstrap I c s).1, (serveBootstrap I c s).2.mem⟩, ?_, rfl⟩
  unfold serveBootstrap bootstrapMalloc
  by_cases hfull : bootstrapSize < (s.bootstrapOffset + roundUp16 c.total) % 2^64
  · simp only [hfull, ↓reduceIte]
    cases c with
    | malloc size =>
      exact ⟨rfl, rfl, ⟨(if_pos hfull).symm, nofun⟩, rfl, rfl, rfl, rfl, rfl⟩
    | calloc n size =>
      exact ⟨rfl, rfl, ⟨(if_pos hfull).symm, fun _ _ _ h => absurd rfl h⟩, rfl, rfl, rfl, rfl, rfl⟩
  · have hne : I.buf + s.bootstrapOffset ≠ 0 := by omega
    simp only [hfull, ↓reduceIte, hne, ne_eq, not_false_eq_true]
    cases c with
    | malloc size =>
      exact ⟨rfl, rfl, ⟨(if_neg hfull).symm, nofun⟩, rfl, (if_neg hne).symm, rfl, rfl, rfl⟩
    | calloc n size =>
      refine ⟨rfl, rfl, ⟨(if_neg hfull).symm, ?_⟩, rfl, (if_neg hne).symm, rfl, rfl, rfl⟩
      intro _ _ _ _ a h1 h2
      exact if_pos ⟨h1, h2⟩

section
variable (hi : Inv I s)
include hi

theorem Inv.serve (hs : s.initialized = true) (c : AllocCall) :
    Inv I (serveBootstrap I c s).2 ∧ (serveBootstrap I c s).2.initialized = true := by
  obtain ⟨v, h, -⟩ := serveBootstrap_spec (I := I) c s
  refine ⟨⟨?_, fun _ => h.initialized.trans hs⟩, h.initialized.trans hs⟩
  rw [h.served, h.next]
  exact ⟨by rw [h.offset]; exact hi.chain, h.asServed, rfl⟩

theorem Inv.allocReady (hs : s.initialized = true) (c : AllocCall) (x : Ext) :
    Inv I (allocReady I c x s).2 ∧ (allocReady I c x s).2.initialized = true := by
  unfold Hooks.allocReady
  split
  · exact hi.serve hs c
  · cases c with
    | malloc size => exact ⟨hi.congr rfl rfl id, hs⟩
    | calloc n size =>
      dsimp only
      split
      · exact ⟨hi, hs⟩
      · unfold State.pass
        dsimp only
        split <;> exact ⟨hi.congr rfl rfl id, hs⟩

theorem Inv.lookUp (hs : s.initialized = true) (d : Dlsym) (sym : Symbol) :
    Inv I (lookUp I d s sym) ∧ (lookUp I d s sym).initialized = true := by
  have hfold : ∀ (l : List (AllocCall × Ext)) (s : State), Inv I s → s.initialized = true →
      Inv I (l.foldl (fun s c => (Hooks.allocReady I c.1 c.2 s).2) s) ∧
        (l.foldl (fun s c => (Hooks.allocReady I c.1 c.2 s).2) s).initialized = true := by
    intro l
    induction l with
    | nil => exact fun s hi hs => ⟨hi, hs⟩
    | cons c l ih =>
      intro s hi hs
      exact ih _ (hi.allocReady hs c.1 c.2).1 (hi.allocReady hs c.1 c.2).2
  obtain ⟨h1, h2⟩ := hfold (d.nested sym) s hi hs
  exact ⟨h1.congr rfl rfl id, h2⟩

theorem Inv.hooksInit (d : Dlsym) :
    Inv I (hooksInit I d s) ∧ (hooksInit I d s).initialized = true := by
  unfold Hooks.hooksInit
  split
  next hs => exact ⟨hi, hs⟩
  next =>
    have h0 : Inv I { s with initialized := true } := hi.congr rfl rfl (fun _ => rfl)
    obtain ⟨h1, i1⟩ := h0.lookUp rfl d .malloc
    obtain ⟨h2, i2⟩ := h1.lookUp i1 d .free
    obtain ⟨h3, i3⟩ := h2.lookUp i2 d .calloc
    exact h3.lookUp i3 d .realloc

theorem Inv.alloc (d : Dlsym) (c : AllocCall) (x : Ext) :
    Inv I (alloc I d c x s).2 := by
  unfold Hooks.alloc
  split
  next hs => exact (hi.allocReady hs c x).1
  next =>
    obtain ⟨h1, i1⟩ := hi.hooksInit d
    dsimp only
    split
    · exact h1.congr rfl rfl id
    · exact (h1.serve i1 c).1

theorem Inv.realFree (ptr : Nat) (x : Ext) : Inv I (realFree ptr x s) := by
  unfold Hooks.realFree
  split
  · exact hi.congr rfl rfl id
  · exact hi

theorem Inv.free (ptr : Nat) (x : Ext) : Inv I (free I ptr x s) := by
  unfold Hooks.free
  split_ifs
  · exact hi
  · exact hi
  · exact hi.realFree ptr x
  · split
    next l _ =>
      have hl : Inv I { s with realBootstrapPtrs := l } := hi.congr rfl rfl id
      exact hl.realFree ptr x
    · exact hi.congr rfl rfl id

theorem Inv.realloc (d : Dlsym) (ptr : Nat) (size : UInt64) (x : Ext) :
    Inv I (realloc I d ptr size x s).2 := by
  unfold Hooks.realloc
  split_ifs
  · exact hi.alloc d _ x
  · exact hi.free ptr x
  · dsimp only
    split
    · exact (hi.alloc d _ x).congr rfl rfl id
    · exact hi.alloc d _ x
  · exact hi.congr rfl rfl id
  · exact hi
  · cases realBootstrapReplace ptr ptr s.realBootstrapPtrs with
    | none => exact hi.congr rfl rfl id
    | some l => exact hi
  · cases realBootstrapReplace ptr ptr s.realBootstrapPtrs with
    | none => exact hi.congr rfl rfl id
    | some l =>
      unfold State.pass
      dsimp only
      split <;> exact hi.congr rfl rfl id

theorem Inv.call (d : Dlsym) (c : HookCall) (x : Ext) : Inv I (call I d c x s).2 := by
  cases c with
  | alloc c => exact hi.alloc d c x
  | free ptr => exact hi.free ptr x
  | realloc ptr size => exact hi.realloc d ptr size x
  | memalign alignment size => exact hi.congr rfl rfl id
  | posixMemalign memptr alignment size =>
    unfold Hooks.call posixMemalign
    dsimp only
    split
    · exact hi
    · split <;> exact hi.congr rfl rfl id
  | alignedAlloc alignment size =>
    unfold Hooks.call alignedAlloc
    dsimp only
    split_ifs
    · exact hi
    · exact hi
    · exact hi.congr rfl rfl id
  | mallocUsableSize ptr => exact hi.congr rfl rfl id

end

theorem Reached.inv (h : Reached I d s) : Inv I s := by
  induction h with
  | start mem => exact .start I mem
  | call c x _ ih => exact ih.call d c x
  | write mem _ ih => exact ih.congr rfl rfl id

/-! ## Blocks -/

/-- The fill level stays inside the buffer and a multiple of 16, even after a sum ran over. -/
theorem Chain.level {l : List Service} {offset : Nat} (h : Chain I l offset) :
    offset ≤ bootstrapSize ∧ 16 ∣ offset := by
  induction l generalizing offset with
  | nil => rw [show offset = 0 from h]; decide
  | cons v older ih =>
    obtain ⟨hrest, hserved, rfl⟩ := h
    obtain ⟨h1, h2⟩ := ih hrest
    have hptr := hserved.ptr
    unfold Service.next
    split
    · exact ⟨h1, h2⟩
    next hne =>
      rw [hptr] at hne
      have hfull : ¬ bootstrapSize < (v.offset + roundUp16 v.call.total) % 2^64 :=
        fun h => hne (if_pos h)
      refine ⟨Nat.le_of_not_lt hfull, ?_⟩
      have hr := roundUp16_eq v.call.total
      omega

/-- A block that fits has its bytes between the fill levels before and after. -/
theorem Service.AsServed.fits {v : Service} (h : v.AsServed I) (hlevel : v.offset ≤ bootstrapSize)
    (hdvd : 16 ∣ v.offset) (hfits : v.Fits) :
    (v.ptr = 0 ∧ v.next = v.offset) ∨
      (v.ptr = I.buf + v.offset ∧ v.call.bytes < 2^64 ∧ v.next = v.offset + v.size ∧
        v.next ≤ bootstrapSize) := by
  have hpos := I.buf_pos
  obtain ⟨h1, h2⟩ := hfits
  have hr := roundUp16_eq v.call.total
  have ht : v.call.total = v.call.bytes % 2^64 := rfl
  have hb : bootstrapSize = 4096 := rfl
  have hsum : (v.offset + roundUp16 v.call.total) % 2^64 = v.offset + (v.call.total + 15) / 16 * 16 := by
    omega
  have hptr := h.ptr
  rw [hsum] at hptr
  unfold Service.next
  split at hptr
  · exact .inl ⟨hptr, if_pos hptr⟩
  next hroom =>
    have hlt : v.call.bytes < 2^64 := h2.resolve_right hroom
    rw [if_neg (by omega), hsum]
    unfold Service.size
    exact .inr ⟨hptr, hlt, by omega, by omega⟩

/-- A call that does not fit returns a block that is too short. -/
theorem Service.AsServed.fits_of_sound {v : Service} {older : List Service} (h : v.AsServed I)
    (hlevel : v.offset ≤ bootstrapSize) (hdvd : 16 ∣ v.offset) (hsound : v.Sound I older) : v.Fits := by
  have hpos := I.buf_pos
  have hr := roundUp16_eq v.call.total
  have ht : v.call.total = v.call.bytes % 2^64 := rfl
  have hb : bootstrapSize = 4096 := rfl
  have hptr := h.ptr
  rcases hsound with h0 | ⟨⟨offset, hp, -, hfit⟩, -, -⟩
  · rw [h0] at hptr
    unfold Service.Fits
    split at hptr <;> omega
  · unfold Service.Fits
    omega

/-- While everything fits, the blocks lie below the fill level. -/
theorem Chain.below {l : List Service} {offset : Nat} (h : Chain I l offset) (hfits : ∀ v ∈ l, v.Fits)
    {u : Service} (hu : u ∈ l) (hne : u.ptr ≠ 0) :
    I.buf ≤ u.ptr ∧ u.ptr + u.size ≤ I.buf + offset := by
  induction l generalizing offset with
  | nil => cases hu
  | cons v older ih =>
    obtain ⟨hrest, hserved, rfl⟩ := h
    obtain ⟨h1, h2⟩ := hrest.level
    have hv := hserved.fits h1 h2 (hfits v List.mem_cons_self)
    rcases List.mem_cons.mp hu with rfl | hu
    · omega
    · have := ih hrest (fun v hv => hfits v (List.mem_cons_of_mem _ hv)) hu
      omega

theorem Chain.allSound {l : List Service} {offset : Nat} (h : Chain I l offset)
    (hfits : ∀ v ∈ l, v.Fits) : AllSound I l := by
  induction l generalizing offset with
  | nil => trivial
  | cons v older ih =>
    obtain ⟨hrest, hserved, rfl⟩ := h
    obtain ⟨h1, h2⟩ := hrest.level
    have hold : ∀ v ∈ older, v.Fits := fun v hv => hfits v (List.mem_cons_of_mem _ hv)
    refine ⟨?_, ih hrest hold⟩
    rcases hserved.fits h1 h2 (hfits v List.mem_cons_self) with ⟨h0, -⟩ | ⟨hptr, hlt, hnext, hle⟩
    · exact .inl h0
    · have hsize : v.call.bytes ≤ v.size := by unfold Service.size; omega
      refine .inr ⟨⟨v.offset, hptr, h2, by omega⟩, ?_, ?_⟩
      · intro u hu hne
        have hu := hrest.below hold hu hne
        have : u.call.bytes ≤ u.size := by unfold Service.size; omega
        left
        simp only [Service.range]
        omega
      · intro n size hc a ha
        have ht : v.call.total = v.call.bytes := Nat.mod_eq_of_lt hlt
        refine hserved.zero n size hc (by have := I.buf_pos; omega) a ha.1 ?_
        rw [ht]
        exact ha.2

theorem Chain.fits {l : List Service} {offset : Nat} (h : Chain I l offset) (hs : AllSound I l) :
    ∀ v ∈ l, v.Fits := by
  induction l generalizing offset with
  | nil => exact nofun
  | cons v older ih =>
    obtain ⟨hrest, hserved, -⟩ := h
    obtain ⟨h1, h2⟩ := hrest.level
    intro w hw
    rcases List.mem_cons.mp hw with rfl | hw
    · exact hserved.fits_of_sound h1 h2 hs.1
    · exact ih hrest hs.2 w hw

/-- **Bootstrap blocks**, after every sequence of hook calls: all calls served from the buffer got
null or a sound block if and only if for none of them a sum or a product ran over 64 bits. -/
theorem bootstrap_sound_iff (h : Reached I d s) : AllSound I s.served ↔ ∀ v ∈ s.served, v.Fits :=
  ⟨h.inv.chain.fits, h.inv.chain.allSound⟩

/-! A process in which `dlsym` finds nothing, so that every call is served from the buffer. -/

def lowImage : Image := ⟨2^20, by norm_num, by decide⟩

def nothingFound : Dlsym := ⟨fun _ => [], fun _ => false⟩

/-- The state after these calls of `malloc` and `calloc`. -/
def servedRun (l : List AllocCall) : State :=
  l.foldl (fun s c => (call lowImage nothingFound (.alloc c) ⟨0, s.mem⟩ s).2) (start fun _ => 0)

theorem servedRun_reached (l : List AllocCall) : Reached lowImage nothingFound (servedRun l) := by
  have h : ∀ (l : List AllocCall) (s : State), Reached lowImage nothingFound s →
      Reached lowImage nothingFound
        (l.foldl (fun s c => (call lowImage nothingFound (.alloc c) ⟨0, s.mem⟩ s).2) s) := by
    intro l
    induction l with
    | nil => exact fun _ hs => hs
    | cons c l ih => exact fun s hs => ih _ (hs.call _ _)
  exact h l _ (.start _)

instance (v : Service) : Decidable v.Fits := by unfold Service.Fits; infer_instance

theorem bootstrap_sound_two :
    AllSound lowImage (servedRun [.malloc 100, .calloc 10 20]).served :=
  (bootstrap_sound_iff (servedRun_reached [.malloc 100, .calloc 10 20])).mpr (by decide +kernel)

theorem not_allSound {l : List AllocCall} (h : ¬ ∀ v ∈ (servedRun l).served, v.Fits) :
    ¬ AllSound lowImage (servedRun l).served :=
  fun hs => h ((servedRun_reached l).inv.chain.fits hs)

/-- The largest size is rounded to zero, and a product of 2^64 is zero: each call returns a pointer
at which its caller owns nothing. -/
theorem bootstrap_overrun :
    (∃ s, Reached lowImage nothingFound s ∧ s.served.map (·.call) = [.malloc 0xFFFFFFFFFFFFFFFF] ∧
      s.served.map (·.ptr) = [lowImage.buf] ∧ ¬ AllSound lowImage s.served) ∧
    (∃ s, Reached lowImage nothingFound s ∧ s.served.map (·.call) = [.calloc 0x100000000 0x100000000] ∧
      s.served.map (·.ptr) = [lowImage.buf] ∧ ¬ AllSound lowImage s.served) :=
  ⟨⟨_, servedRun_reached [.malloc 0xFFFFFFFFFFFFFFFF], by decide +kernel, by decide +kernel,
      not_allSound (by decide +kernel)⟩,
    ⟨_, servedRun_reached [.calloc 0x100000000 0x100000000], by decide +kernel, by decide +kernel,
      not_allSound (by decide +kernel)⟩⟩

/-! ## What `realloc` copies -/

/-- The answer of an allocator that has nothing to do with the bootstrap buffer: it writes
elsewhere, and a block it returns lies elsewhere. -/
structure Ext.Elsewhere (I : Image) (bytes : Nat) (s : State) (x : Ext) : Prop where
  mem : ∀ a, I.buf ≤ a → a < I.buf + bootstrapSize → x.mem a = s.mem a
  block : x.result = 0 ∨ Region.Apart ⟨x.result, bytes⟩ ⟨I.buf, bootstrapSize⟩

/-- Resizing block `u` to `n` bytes, with the new block at `q`, copies the block and nothing else. -/
structure CopiesBlock (u : Service) (n q : Nat) (s s' : State) : Prop where
  copy : s'.copies = ⟨q, u.ptr, min u.size n⟩ :: s.copies
  bytes : ∀ i < min u.size n, s'.mem (q + i) = s.mem (u.ptr + i)
  apart : Region.Apart ⟨q, min u.size n⟩ ⟨u.ptr, min u.size n⟩
  others : ∀ v ∈ s.served, v.ptr ≠ 0 → ∀ a, v.ptr ≤ a → a < v.ptr + v.size → s'.mem a = s.mem a

/-- Where the new block of a bootstrap block comes from. -/
theorem Inv.allocReady_apart (hi : Inv I s) {n : UInt64} {x : Ext} (hx : x.Elsewhere I n.toNat s)
    (hq : (Hooks.allocReady I (.malloc n) x s).1 ≠ 0) :
    (∀ a, I.buf ≤ a → a < I.buf + s.bootstrapOffset →
      (Hooks.allocReady I (.malloc n) x s).2.mem a = s.mem a) ∧
    Region.Apart ⟨(Hooks.allocReady I (.malloc n) x s).1, n.toNat⟩ ⟨I.buf, s.bootstrapOffset⟩ := by
  obtain ⟨hlevel, hdvd⟩ := hi.chain.level
  unfold Hooks.allocReady at hq ⊢
  split at hq
  · -- from the buffer: behind the blocks served so far
    rename_i hactive
    rw [if_pos hactive]
    obtain ⟨v, hv, hptr⟩ := serveBootstrap_spec (I := I) (.malloc n) s
    rw [hptr] at hq ⊢
    have hp := hv.asServed.ptr
    split at hp
    · exact absurd hp hq
    · refine ⟨fun a _ _ => ?_, .inr ?_⟩
      · unfold serveBootstrap bootstrapMalloc
        dsimp only
        split <;> rfl
      · rw [hv.offset] at hp
        simp only [hp]
        omega
  · rename_i hactive
    rw [if_neg hactive]
    refine ⟨fun a h1 h2 => hx.mem a h1 (by omega), ?_⟩
    rcases hx.block.resolve_left hq with h | h
    · exact .inl h
    · right
      simp only [State.pass] at h ⊢
      omega

theorem allocReady_copies (c : AllocCall) (x : Ext) : (allocReady I c x s).2.copies = s.copies := by
  unfold allocReady
  split
  · obtain ⟨v, hv, -⟩ := serveBootstrap_spec (I := I) c s
    exact hv.copies
  · cases c with
    | malloc size => rfl
    | calloc n size =>
      dsimp only
      split
      · rfl
      · unfold State.pass
        dsimp only
        split <;> rfl

/-- **Resizing a bootstrap block**, after every sequence of hook calls in which every request the
buffer served fits: a `realloc` that succeeds copies exactly the block, or its first `n` bytes, if
and only if the new size is no larger than the block. -/
theorem realloc_copies_iff (h : Reached I d s) (hfits : ∀ v ∈ s.served, v.Fits) {u : Service}
    (hu : u ∈ s.served) (hin : inBootstrap I u.ptr = true) {n : UInt64} (hn : n ≠ 0) {x : Ext}
    (hx : x.Elsewhere I n.toNat s) (hq : (realloc I d u.ptr n x s).1 ≠ 0) :
    CopiesBlock u n.toNat (realloc I d u.ptr n x s).1 s (realloc I d u.ptr n x s).2 ↔
      n.toNat ≤ u.size := by
  have hi := h.inv
  have hinit : s.initialized = true := hi.init (List.ne_nil_of_mem hu)
  have hbuf : I.buf ≤ u.ptr ∧ u.ptr < I.buf + bootstrapSize := of_decide_eq_true hin
  have hne : u.ptr ≠ 0 := by have := I.buf_pos; omega
  have halloc : alloc I d (.malloc n) x s = allocReady I (.malloc n) x s := if_pos hinit
  have hrun : realloc I d u.ptr n x s =
      ((allocReady I (.malloc n) x s).1,
        if (allocReady I (.malloc n) x s).1 ≠ 0 then
          (allocReady I (.malloc n) x s).2.memcpy (allocReady I (.malloc n) x s).1 u.ptr n.toNat
        else (allocReady I (.malloc n) x s).2) := by
    rw [realloc, if_neg hne, if_neg hn, if_pos hin, halloc]
  rw [hrun] at hq ⊢
  simp only [if_pos hq]
  have hcopies := allocReady_copies (I := I) (s := s) (.malloc n) x
  constructor
  · intro hc
    -- the length the code hands to memcpy is the new size
    have hcopy := hc.copy
    simp only [State.memcpy, hcopies, List.cons.injEq, Copy.mk.injEq, true_and, and_true] at hcopy
    omega
  · intro hle
    obtain ⟨hlow, hhigh⟩ := hi.chain.below hfits hu hne
    have hlevel := hi.chain.level.1
    obtain ⟨hmem, hapart⟩ := hi.allocReady_apart hx hq
    have hmin : min u.size n.toNat = n.toNat := Nat.min_eq_right hle
    generalize allocReady I (.malloc n) x s = r at *
    simp only [Region.Apart] at hapart
    refine ⟨?_, ?_, ?_, ?_⟩
    · rw [hmin]
      simp only [State.memcpy, hcopies]
    · intro i hi
      rw [hmin] at hi
      simp only [State.memcpy]
      rw [if_pos ⟨by omega, by omega⟩, Nat.add_sub_cancel_left]
      exact hmem _ (by omega) (by omega)
    · rw [hmin]
      simp only [Region.Apart]
      omega
    · intro v hv hvne a h1 h2
      have hvb := hi.chain.below hfits hv hvne
      simp only [State.memcpy]
      rw [if_neg (by omega)]
      exact hmem a (by omega) (by omega)

/-- Two blocks of 16 bytes. -/
def twoBlocks : State := servedRun [.malloc 16, .malloc 16]

/-- The older of them. -/
def olderBlock : Service := ⟨.malloc 16, 0, lowImage.buf, fun _ => 0⟩

theorem olderBlock_mem : olderBlock ∈ twoBlocks.served := by
  have h : twoBlocks.served = [⟨.malloc 16, 16, lowImage.buf + 16, fun _ => 0⟩, olderBlock] := rfl
  rw [h]
  exact List.mem_cons_of_mem _ List.mem_cons_self

theorem twoBlocks_fits : ∀ v ∈ twoBlocks.served, v.Fits := by decide +kernel

theorem elsewhere_null (bytes : Nat) (s : State) : Ext.Elsewhere lowImage bytes s ⟨0, s.mem⟩ :=
  ⟨fun _ _ _ => rfl, .inl rfl⟩

theorem realloc_copies_half :
    CopiesBlock olderBlock (8 : UInt64).toNat
      (realloc lowImage nothingFound olderBlock.ptr 8 ⟨0, twoBlocks.mem⟩ twoBlocks).1 twoBlocks
      (realloc lowImage nothingFound olderBlock.ptr 8 ⟨0, twoBlocks.mem⟩ twoBlocks).2 :=
  (realloc_copies_iff (n := 8) (servedRun_reached _) twoBlocks_fits olderBlock_mem (by decide) (by decide)
    (elsewhere_null _ twoBlocks) (by decide +kernel)).mpr (by decide)

/-- Resized to 64 bytes, the older block takes the younger one with it: 64 bytes are copied out of
a block of 16. -/
theorem realloc_copies_neighbour :
    Reached lowImage nothingFound twoBlocks ∧ olderBlock ∈ twoBlocks.served ∧ olderBlock.size = 16 ∧
      (realloc lowImage nothingFound olderBlock.ptr 64 ⟨0, twoBlocks.mem⟩ twoBlocks).1 = lowImage.buf + 32 ∧
      (realloc lowImage nothingFound olderBlock.ptr 64 ⟨0, twoBlocks.mem⟩ twoBlocks).2.copies =
        [⟨lowImage.buf + 32, lowImage.buf, 64⟩] ∧
      ¬ CopiesBlock olderBlock 64 (lowImage.buf + 32) twoBlocks
        (realloc lowImage nothingFound olderBlock.ptr 64 ⟨0, twoBlocks.mem⟩ twoBlocks).2 := by
  have hcopies : (realloc lowImage nothingFound olderBlock.ptr 64 ⟨0, twoBlocks.mem⟩ twoBlocks).2.copies =
      [⟨lowImage.buf + 32, lowImage.buf, 64⟩] := by decide +kernel
  refine ⟨servedRun_reached _, olderBlock_mem, by decide, by decide +kernel, hcopies, ?_⟩
  intro h
  have hcopy := h.copy
  rw [hcopies] at hcopy
  exact absurd hcopy (by decide +kernel)

end

end MyMalloc.Hooks
