import MyMalloc.Classic.Ptmalloc.Malloc
import MyMalloc.Lib.Links
import MyMalloc.Lib.Region

/- The registry of heaps under concurrency (`heap.cpp`).

   `HeapInfo::new_heap` maps a heap, fills in its `HeapInfo` and pushes it on the
   list from `HeapRegistry::head_`. No lock protects the push: it is a read of
   `head_`, a write of `h->prev` and a write of `head_`, and the steps of different
   threads interleave freely. A run is a sequence of such steps, with the heaps
   created so far kept beside it.

   Whatever the interleaving, the links never form a cycle. What can be lost is a
   heap: when `head_` changes between a push's read and its write, two heaps end up
   with the same `prev`, and no walk from `head_` visits both. -/
namespace MyMalloc.Ptmalloc.Registry

open Words (pageRound heapInfoSize heapMinSize)

/-- The fields of a `HeapInfo` that are read. -/
structure HeapInfo where
  arPtr : Nat
  prev : Nat
  size : Nat

/-- A heap that was created, and the arena it was created for. -/
structure Heap where
  range : Region
  owner : Nat

/-- How far a thread is in `new_heap`. -/
inductive Phase where
  | idle
  /-- The `HeapInfo` at `h` is filled in. -/
  | created (h : Nat)
  /-- `head_` was read. -/
  | read (h old : Nat)
  /-- `h->prev` was written. -/
  | linked (h : Nat)
  deriving DecidableEq

/-- The heap a thread is about to register. -/
def Phase.heap : Phase → Option Nat
  | .idle => none
  | .created h => some h
  | .read h _ => some h
  | .linked h => some h

structure State (τ : Type) where
  head : Nat
  info : Nat → HeapInfo
  phase : τ → Phase
  heaps : List Heap

def init {τ : Type} : State τ := ⟨0, fun _ => ⟨0, 0, 0⟩, fun _ => .idle, []⟩

/-- One step of one thread. `map` is the start of `new_heap(size, ar)` up to the call of
`register_heap`, with the kernel's answer. -/
inductive Action (τ : Type) where
  | map (t : τ) (size ar : Nat) (answer : Option Nat)
  | readHead (t : τ)
  | writePrev (t : τ)
  | writeHead (t : τ)

section
variable {τ : Type} [DecidableEq τ]

/-- The bytes `new_heap` asks for. -/
def total (size : Nat) : Nat := pageRound (max ((heapInfoSize + size) % 2^64) heapMinSize)

/-- The kernel gives out ranges of user space that overlap no heap. -/
def Fresh (s : State τ) (r : Region) : Prop :=
  r.base ≠ 0 ∧ 0 < r.size ∧ r.base + r.size < 2^64 ∧ ∀ h ∈ s.heaps, r.Apart h.range

instance (s : State τ) (r : Region) : Decidable (Fresh s r) := inferInstanceAs (Decidable (_ ∧ _))

/-- `HeapInfo::new_heap`, step by step, for an arena that is not null; `none` where the thread
is not at that step. -/
def step (s : State τ) : Action τ → Option (State τ)
  | .map t size ar answer =>
    if s.phase t ≠ .idle ∨ ar = 0 then none
    else match answer with
      | none => some s
      | some raw =>
        if Fresh s ⟨raw, total size⟩ then
          some { s with
            info := Function.update s.info raw ⟨ar, 0, total size⟩
            phase := Function.update s.phase t (.created raw)
            heaps := ⟨⟨raw, total size⟩, ar⟩ :: s.heaps }
        else none
  | .readHead t =>
    match s.phase t with
    | .created h => some { s with phase := Function.update s.phase t (.read h s.head) }
    | _ => none
  | .writePrev t =>
    match s.phase t with
    | .read h old =>
      some { s with
        info := Function.update s.info h { s.info h with prev := old }
        phase := Function.update s.phase t (.linked h) }
    | _ => none
  | .writeHead t =>
    match s.phase t with
    | .linked h => some { s with head := h, phase := Function.update s.phase t .idle }
    | _ => none

/-- The step does not overwrite `head_` with a heap whose `prev` is not what `head_` is. -/
def keepsHead (s : State τ) : Action τ → Bool
  | .writeHead t =>
    match s.phase t with
    | .linked h => (s.info h).prev = s.head
    | _ => true
  | _ => true

/-- The states of all runs, with whether every step of the run so far kept the head. -/
inductive Run : State τ → Bool → Prop where
  | init : Run init true
  | step {s s' : State τ} {kept : Bool} (a : Action τ) (h : Run s kept) (hs : step s a = some s') :
      Run s' (kept && keepsHead s a)

def containsChunk (h : Nat) (info : HeapInfo) (p : Nat) : Bool :=
  decide (h ≤ p) && decide (p < h + info.size)

/-- The loop of `HeapRegistry::find_arena` from heap `h`; 0 is null. -/
def findFrom (info : Nat → HeapInfo) (p : Nat) : Nat → Nat → Option Nat
  | 0, _ => none
  | fuel + 1, h =>
    if h = 0 then some 0
    else if containsChunk h (info h) p then some (info h).arPtr
    else findFrom info p fuel (info h).prev

/-- `HeapInfo::arena_for_chunk(p)` returns `r`. -/
def ArenaForChunk (s : State τ) (p r : Nat) : Prop := ∃ fuel, findFrom s.info p fuel s.head = some r

/-- Every address of a heap is found to belong to the heap's arena, and no other address
is found at all. -/
def Locates (s : State τ) : Prop :=
  (∀ h ∈ s.heaps, ∀ p, h.range.Has p → ArenaForChunk s p h.owner) ∧
    ∀ p, (∀ h ∈ s.heaps, ¬ h.range.Has p) → ArenaForChunk s p 0

/-- No call is in flight. -/
def Quiescent (s : State τ) : Prop := ∀ t, s.phase t = .idle

/-! ## What every run keeps -/

/-- The heap at `x` was registered: no call is at work on it any more. -/
def Settled (s : State τ) (x : Nat) : Prop :=
  (∃ h ∈ s.heaps, h.range.base = x) ∧ ∀ t, (s.phase t).heap ≠ some x

/-- What a thread read of `head_` is null or satisfies `P`. -/
def Phase.OldIn (info : Nat → HeapInfo) (P : Nat → Prop) : Phase → Prop
  | .read _ old => old = 0 ∨ P old
  | .linked h => (info h).prev = 0 ∨ P (info h).prev
  | _ => True

/-- What a thread holds between its steps: a heap no other thread works on, and a `prev`
that was the head once. -/
def PhaseOk (s : State τ) (t : τ) : Prop :=
  (∀ x, (s.phase t).heap = some x →
    (∃ h ∈ s.heaps, h.range.base = x) ∧ ∀ t', (s.phase t').heap = some x → t' = t) ∧
  (s.phase t).OldIn s.info (Settled s)

/-- Following `prev` from `x` visits registered heaps only, and ends. -/
def Hangs (s : State τ) (x : Nat) : Prop :=
  ∃ l, Chain 0 (fun h => (s.info h).prev) x l ∧ ∀ y ∈ l, Settled s y

structure Inv (s : State τ) (kept : Bool) : Prop where
  range : ∀ h ∈ s.heaps, h.range.base ≠ 0 ∧ 0 < h.range.size ∧ h.owner ≠ 0
  apart : s.heaps.Pairwise fun h h' => h.range.Apart h'.range
  info : ∀ h ∈ s.heaps, (s.info h.range.base).arPtr = h.owner ∧
    (s.info h.range.base).size = h.range.size
  phase : ∀ t, PhaseOk s t
  head : s.head = 0 ∨ Settled s s.head
  hangs : ∀ x, x = 0 ∨ Settled s x → Hangs s x
  all : kept = true → ∀ l, Chain 0 (fun h => (s.info h).prev) s.head l → ∀ x, Settled s x → x ∈ l
  lost : kept = false → ∃ x y, Settled s x ∧ Settled s y ∧ x ≠ y ∧ (s.info x).prev = (s.info y).prev

namespace Inv
variable {s s' : State τ} {kept : Bool} {t : τ} {h old : Nat}

omit [DecidableEq τ] in
theorem init : Inv (init : State τ) true where
  range _ hh := absurd hh List.not_mem_nil
  apart := .nil
  info _ hh := absurd hh List.not_mem_nil
  phase _ := ⟨nofun, trivial⟩
  head := .inl rfl
  hangs x hx := by
    refine ⟨[], hx.resolve_right ?_, fun _ hy => absurd hy List.not_mem_nil⟩
    rintro ⟨⟨h, hh, -⟩, -⟩
    exact absurd hh List.not_mem_nil
  all _ _ _ := by
    rintro x ⟨⟨h, hh, -⟩, -⟩
    exact absurd hh List.not_mem_nil
  lost hk := nomatch hk

omit [DecidableEq τ] in
/-- A step that registers no heap and leaves the registered ones and the head alone. -/
theorem quiet (hi : Inv s kept) (hset : ∀ x, Settled s' x ↔ Settled s x)
    (hprev : ∀ x, Settled s x → (s'.info x).prev = (s.info x).prev) (hhead : s'.head = s.head)
    (range : ∀ h ∈ s'.heaps, h.range.base ≠ 0 ∧ 0 < h.range.size ∧ h.owner ≠ 0)
    (apart : s'.heaps.Pairwise fun h h' => h.range.Apart h'.range)
    (info : ∀ h ∈ s'.heaps, (s'.info h.range.base).arPtr = h.owner ∧
      (s'.info h.range.base).size = h.range.size)
    (phase : ∀ t, PhaseOk s' t) : Inv s' kept where
  range := range
  apart := apart
  info := info
  phase := phase
  head := by rw [hhead, hset]; exact hi.head
  hangs x hx := by
    rw [hset] at hx
    obtain ⟨l, hl, hls⟩ := hi.hangs x hx
    exact ⟨l, hl.congr (fun y hy => hprev y (hls y hy)), fun y hy => (hset y).mpr (hls y hy)⟩
  all hk l hl x hx := by
    -- the chain from the head is the old one
    obtain ⟨l₀, hl₀, hls⟩ := hi.hangs s.head hi.head
    have hnew : Chain 0 (fun h => (s'.info h).prev) s'.head l₀ := by
      rw [hhead]
      exact hl₀.congr (fun y hy => hprev y (hls y hy))
    rw [hl.unique hnew]
    exact hi.all hk l₀ hl₀ x ((hset x).mp hx)
  lost hk := by
    obtain ⟨x, y, hx, hy, hne, e⟩ := hi.lost hk
    exact ⟨x, y, (hset x).mpr hx, (hset y).mpr hy, hne, by rw [hprev x hx, hprev y hy, e]⟩

/-- A thread moves on with the heap it has: the same heaps are registered. -/
theorem settled_hold {s : State τ} {t : τ} {ph : Phase} (info : Nat → HeapInfo)
    (he : ph.heap = (s.phase t).heap) (x : Nat) :
    Settled { s with info := info, phase := Function.update s.phase t ph } x ↔ Settled s x := by
  apply and_congr_right
  intro _
  apply forall_congr'
  intro t'
  by_cases e : t' = t
  · subst e; simp [he]
  · simp [e]

section
variable (hi : Inv s kept)
include hi

/-- The phases after one thread moved on with the heap it has. -/
theorem phaseOk_hold {ph : Phase} (info : Nat → HeapInfo)
    (hinfo : ∀ t' x, t' ≠ t → (s.phase t').heap = some x → (info x).prev = (s.info x).prev)
    (he : ph.heap = (s.phase t).heap)
    (ht : ph.OldIn info (Settled s)) (t' : τ) :
    PhaseOk { s with info := info, phase := Function.update s.phase t ph } t' := by
  have hheap : ∀ t', (Function.update s.phase t ph t').heap = (s.phase t').heap := by
    intro t'
    by_cases e : t' = t
    · subst e; simp [he]
    · simp [e]
  have hsettled : Settled { s with info := info, phase := Function.update s.phase t ph } = Settled s :=
    funext fun x => propext (settled_hold info he x)
  obtain ⟨h1, h2⟩ := hi.phase t'
  unfold PhaseOk
  simp only [hheap, hsettled]
  refine ⟨h1, ?_⟩
  by_cases e : t' = t
  · subst e
    simpa using ht
  · simp only [Function.update_of_ne e]
    cases hph : s.phase t' with
    | linked x =>
      rw [hph] at h2
      have hx : (info x).prev = (s.info x).prev := hinfo t' x e (by rw [hph]; rfl)
      simpa only [Phase.OldIn, hx] using h2
    | read x old => rw [hph] at h2; exact h2
    | _ => trivial

theorem readHead (hph : s.phase t = .created h) :
    Inv { s with phase := Function.update s.phase t (.read h s.head) } kept := by
  have he : (Phase.read h s.head).heap = (s.phase t).heap := by rw [hph]; rfl
  exact hi.quiet (settled_hold s.info he) (fun _ _ => rfl) rfl hi.range hi.apart hi.info
    (hi.phaseOk_hold s.info (fun _ _ _ _ => rfl) he hi.head)

theorem writePrev (hph : s.phase t = .read h old) :
    Inv { s with
      info := Function.update s.info h { s.info h with prev := old }
      phase := Function.update s.phase t (.linked h) } kept := by
  have he : (Phase.linked h).heap = (s.phase t).heap := by rw [hph]; rfl
  have hmine : (s.phase t).heap = some h := by rw [hph]; rfl
  refine hi.quiet (settled_hold _ he) (fun x hx => ?_) rfl hi.range hi.apart (fun r hr => ?_)
    (hi.phaseOk_hold _ (fun t' x hne hx => ?_) he ?_)
  · -- the heap at hand is not a registered one
    have hne : x ≠ h := by rintro rfl; exact hx.2 t hmine
    simp [hne]
  · obtain ⟨h1, h2⟩ := hi.info r hr
    by_cases e : r.range.base = h
    · rw [← e]; simpa using ⟨h1, h2⟩
    · simpa [e] using ⟨h1, h2⟩
  · have hxh : x ≠ h := by
      rintro rfl
      exact hne (((hi.phase t).1 x hmine).2 t' hx)
    simp [hxh]
  · have h2 := (hi.phase t).2
    rw [hph] at h2
    simpa [Phase.OldIn] using h2

omit [DecidableEq τ] in
theorem base_ne {r : Region} (hf : Fresh s r) : ∀ h ∈ s.heaps, h.range.base ≠ r.base := by
  intro h hh e
  obtain ⟨-, hpos, -, hap⟩ := hf
  have := (hi.range h hh).2.1
  rcases hap h hh with h' | h' <;> omega

theorem map {r : Region} {ar : Nat} (hph : s.phase t = .idle) (har : ar ≠ 0)
    (hf : Fresh s r) :
    Inv { s with
      info := Function.update s.info r.base ⟨ar, 0, r.size⟩
      phase := Function.update s.phase t (.created r.base)
      heaps := ⟨r, ar⟩ :: s.heaps } kept := by
  have hne := hi.base_ne hf
  have hidle : ∀ x, (s.phase t).heap ≠ some x := by rw [hph]; exact nofun
  have hset : ∀ x, Settled { s with
      info := Function.update s.info r.base ⟨ar, 0, r.size⟩
      phase := Function.update s.phase t (.created r.base)
      heaps := ⟨r, ar⟩ :: s.heaps } x ↔ Settled s x := by
    intro x
    constructor
    · rintro ⟨⟨h, hh, rfl⟩, hall⟩
      rcases List.mem_cons.mp hh with rfl | hh
      · exact absurd (by simp [Phase.heap]) (hall t)
      · refine ⟨⟨h, hh, rfl⟩, fun t' => ?_⟩
        by_cases e : t' = t
        · rw [e]; exact hidle _
        · simpa [e] using hall t'
    · rintro ⟨⟨h, hh, rfl⟩, hall⟩
      refine ⟨⟨h, List.mem_cons_of_mem _ hh, rfl⟩, fun t' => ?_⟩
      by_cases e : t' = t
      · subst e
        simpa [Phase.heap] using (hne h hh).symm
      · simpa [e] using hall t'
  refine hi.quiet hset ?_ rfl ?_ (.cons (fun h hh => hf.2.2.2 h hh) hi.apart) ?_ ?_
  · rintro x ⟨⟨h, hh, rfl⟩, -⟩
    simp [hne h hh]
  · intro h hh
    rcases List.mem_cons.mp hh with rfl | hh
    · exact ⟨hf.1, hf.2.1, har⟩
    · exact hi.range h hh
  · intro h hh
    rcases List.mem_cons.mp hh with rfl | hh
    · simp
    · simpa [hne h hh] using hi.info h hh
  · intro t'
    have hother : ∀ t'' x, t'' ≠ t → (s.phase t'').heap = some x → x ≠ r.base := by
      rintro t'' x - hx rfl
      obtain ⟨⟨h, hh, e⟩, -⟩ := (hi.phase t'').1 _ hx
      exact hne h hh e
    by_cases e : t' = t
    · subst e
      refine ⟨fun x hx => ?_, by simp [Phase.OldIn]⟩
      obtain rfl : r.base = x := by simpa [Phase.heap] using hx
      refine ⟨⟨_, List.mem_cons_self, rfl⟩, fun t'' ht'' => ?_⟩
      by_contra hne'
      exact hother t'' _ hne' (by simpa [hne'] using ht'') rfl
    · obtain ⟨h1, h2⟩ := hi.phase t'
      refine ⟨fun x hx => ?_, ?_⟩
      · have hx' : (s.phase t').heap = some x := by simpa [e] using hx
        obtain ⟨⟨h, hh, hb⟩, huniq⟩ := h1 x hx'
        refine ⟨⟨h, List.mem_cons_of_mem _ hh, hb⟩, fun t'' ht'' => ?_⟩
        by_cases e' : t'' = t
        · subst e'
          exact absurd (by simpa [Phase.heap] using ht''.symm) (hother t' x e hx')
        · exact huniq t'' (by simpa [e'] using ht'')
      · simp only [Function.update_of_ne e]
        cases hph' : s.phase t' with
        | linked x =>
          have hx : x ≠ r.base := hother t' x e (by rw [hph']; rfl)
          rw [hph'] at h2
          simpa [Phase.OldIn, hx, hset] using h2
        | read x old =>
          rw [hph'] at h2
          simpa [Phase.OldIn, hset] using h2
        | _ => trivial

/-- The heap a thread writes into `head_` is registered from then on, and nothing else
changes. -/
theorem settled_writeHead (hph : s.phase t = .linked h) (x : Nat) :
    Settled { s with head := h, phase := Function.update s.phase t .idle } x ↔ Settled s x ∨ x = h := by
  have hmine : (s.phase t).heap = some h := by rw [hph]; rfl
  obtain ⟨hbase, huniq⟩ := (hi.phase t).1 h hmine
  constructor
  · rintro ⟨hx, hall⟩
    by_cases e : x = h
    · exact .inr e
    · refine .inl ⟨hx, fun t' => ?_⟩
      by_cases e' : t' = t
      · subst e'
        rw [hmine]
        simpa using Ne.symm e
      · simpa [e'] using hall t'
  · rintro (⟨hx, hall⟩ | rfl)
    · refine ⟨hx, fun t' => ?_⟩
      by_cases e' : t' = t
      · subst e'; simp [Phase.heap]
      · simpa [e'] using hall t'
    · refine ⟨hbase, fun t' => ?_⟩
      by_cases e' : t' = t
      · subst e'; simp [Phase.heap]
      · simpa [e'] using fun hx => e' (huniq t' hx)

theorem writeHead (hph : s.phase t = .linked h) :
    Inv { s with head := h, phase := Function.update s.phase t .idle }
      (kept && decide ((s.info h).prev = s.head)) := by
  have hmine : (s.phase t).heap = some h := by rw [hph]; rfl
  have hset := hi.settled_writeHead hph
  obtain ⟨⟨r, hr, hrb⟩, -⟩ := (hi.phase t).1 h hmine
  have h0 : h ≠ 0 := hrb ▸ (hi.range r hr).1
  have hnot : ¬ Settled s h := fun hs => hs.2 t hmine
  have hold : (s.info h).prev = 0 ∨ Settled s (s.info h).prev := by
    have := (hi.phase t).2
    rwa [hph] at this
  -- what hangs from the heap that is linked in
  obtain ⟨l, hl, hls⟩ := hi.hangs _ hold
  have hpush : Chain 0 (fun x => (s.info x).prev) h (h :: l) := ⟨rfl, h0, hl⟩
  obtain ⟨m, hm, hms⟩ := hi.hangs s.head hi.head
  refine ⟨hi.range, hi.apart, hi.info, fun t' => ?_, .inr ((hset h).mpr (.inr rfl)), ?_, ?_, ?_⟩
  · by_cases e : t' = t
    · subst e
      simp [PhaseOk, Phase.heap, Phase.OldIn]
    · obtain ⟨h1, h2⟩ := hi.phase t'
      simp only [PhaseOk, Function.update_of_ne e]
      refine ⟨fun x hx => ⟨(h1 x hx).1, fun t'' ht'' => ?_⟩, ?_⟩
      · by_cases e' : t'' = t
        · subst e'; simp [Phase.heap] at ht''
        · exact (h1 x hx).2 t'' (by simpa [e'] using ht'')
      · have hmono : ∀ x, Settled s x → Settled { s with
            head := h, phase := Function.update s.phase t .idle } x := fun x hx => (hset x).mpr (.inl hx)
        cases hph' : s.phase t' with
        | linked x => rw [hph'] at h2; exact h2.imp_right (hmono _)
        | read x old => rw [hph'] at h2; exact h2.imp_right (hmono _)
        | _ => trivial
  · intro x hx
    rw [hset x] at hx
    by_cases e : x = h
    · subst e
      refine ⟨x :: l, hpush, fun y hy => (hset y).mpr ?_⟩
      rcases List.mem_cons.mp hy with rfl | hy
      · exact .inr rfl
      · exact .inl (hls y hy)
    · obtain ⟨k, hk, hks⟩ := hi.hangs x (hx.imp_right fun hx => hx.resolve_right e)
      exact ⟨k, hk, fun y hy => (hset y).mpr (.inl (hks y hy))⟩
  · intro hk k hc x hx
    obtain ⟨hk, hprev⟩ := Bool.and_eq_true_iff.mp hk
    rw [hc.unique hpush]
    rcases (hset x).mp hx with hx | rfl
    · refine List.mem_cons_of_mem _ (hi.all hk l ?_ x hx)
      rw [← of_decide_eq_true hprev]
      exact hl
    · exact List.mem_cons_self
  · intro hk
    by_cases hk' : kept = true
    · -- the first write that loses a heap: what `h` hangs from has another heap on it already
      have hne : (s.info h).prev ≠ s.head := by simpa [hk'] using hk
      have hin : (s.info h).prev = 0 ∨ (s.info h).prev ∈ m := hold.imp_right (hi.all hk' m hm _)
      obtain ⟨y, hy, hyh⟩ := hm.exists_link hin hne
      have hys := hms y hy
      exact ⟨h, y, (hset h).mpr (.inr rfl), (hset y).mpr (.inl hys), fun e => hnot (e ▸ hys), hyh.symm⟩
    · obtain ⟨x, y, hx, hy, hxy, e⟩ := hi.lost (by simpa using hk')
      exact ⟨x, y, (hset x).mpr (.inl hx), (hset y).mpr (.inl hy), hxy, e⟩

theorem step {a : Action τ} (hs : Registry.step s a = some s') :
    Inv s' (kept && keepsHead s a) := by
  cases a with
  | map t size ar answer =>
    simp only [Registry.step] at hs
    simp only [keepsHead, Bool.and_true]
    split at hs
    · cases hs
    · next hcond =>
      push Not at hcond
      cases answer with
      | none =>
        obtain rfl := Option.some.inj hs
        exact hi
      | some raw =>
        dsimp only at hs
        split at hs
        · next hf =>
          obtain rfl := Option.some.inj hs
          exact hi.map hcond.1 hcond.2 hf
        · cases hs
  | readHead t =>
    simp only [Registry.step] at hs
    simp only [keepsHead, Bool.and_true]
    split at hs
    · next h hph =>
      obtain rfl := Option.some.inj hs
      exact hi.readHead hph
    · cases hs
  | writePrev t =>
    simp only [Registry.step] at hs
    simp only [keepsHead, Bool.and_true]
    split at hs
    · next h old hph =>
      obtain rfl := Option.some.inj hs
      exact hi.writePrev hph
    · cases hs
  | writeHead t =>
    simp only [Registry.step] at hs
    split at hs
    · next h hph =>
      obtain rfl := Option.some.inj hs
      simp only [keepsHead, hph]
      exact hi.writeHead hph
    · cases hs

end

theorem of_run (h : Run s kept) : Inv s kept := by
  induction h with
  | init => exact Inv.init
  | step a _ hs ih => exact ih.step hs

end Inv

/-! ## The walk of `find_arena` -/

section walk
variable {info : Nat → HeapInfo} {p h : Nat} {l : List Nat}

theorem findFrom_none (hc : Chain 0 (fun x => (info x).prev) h l)
    (hnone : ∀ y ∈ l, containsChunk y (info y) p = false) :
    findFrom info p (l.length + 1) h = some 0 := by
  induction l generalizing h with
  | nil =>
    have h0 : h = 0 := hc
    simp [findFrom, h0]
  | cons a l ih =>
    obtain ⟨rfl, ha, hl⟩ := hc
    rw [List.length_cons, findFrom, if_neg ha, hnone h List.mem_cons_self, if_neg (by simp)]
    exact ih hl (fun y hy => hnone y (List.mem_cons_of_mem _ hy))

theorem findFrom_mem (hc : Chain 0 (fun x => (info x).prev) h l) {x : Nat} (hx : x ∈ l)
    (hxp : containsChunk x (info x) p = true)
    (huniq : ∀ y ∈ l, containsChunk y (info y) p = true → y = x) :
    findFrom info p (l.length + 1) h = some (info x).arPtr := by
  induction l generalizing h with
  | nil => exact absurd hx List.not_mem_nil
  | cons a l ih =>
    obtain ⟨rfl, ha, hl⟩ := hc
    rw [List.length_cons, findFrom, if_neg ha]
    by_cases hap : containsChunk h (info h) p = true
    · rw [if_pos hap, huniq h List.mem_cons_self hap]
    · have hxl : x ∈ l := (List.mem_cons.mp hx).resolve_left (fun e => hap (e ▸ hxp))
      rw [if_neg hap]
      exact ih hl hxl (fun y hy => huniq y (List.mem_cons_of_mem _ hy))

theorem findFrom_sound (hc : Chain 0 (fun x => (info x).prev) h l) {fuel r : Nat}
    (hr : findFrom info p fuel h = some r) (h0 : r ≠ 0) : ∃ x ∈ l, containsChunk x (info x) p = true := by
  induction l generalizing h fuel with
  | nil =>
    have hh : h = 0 := hc
    cases fuel with
    | zero => cases hr
    | succ n =>
      rw [findFrom, if_pos hh] at hr
      exact absurd (Option.some.inj hr).symm h0
  | cons a l ih =>
    obtain ⟨rfl, ha, hl⟩ := hc
    cases fuel with
    | zero => cases hr
    | succ n =>
      rw [findFrom, if_neg ha] at hr
      split at hr
      · next hap => exact ⟨h, List.mem_cons_self, hap⟩
      · obtain ⟨x, hx, hxp⟩ := ih hl hr
        exact ⟨x, List.mem_cons_of_mem _ hx, hxp⟩

end walk

namespace Inv
variable {s : State τ} {kept : Bool}

omit [DecidableEq τ]

theorem heap_unique (hi : Inv s kept) {r r' : Heap} (hr : r ∈ s.heaps) (hr' : r' ∈ s.heaps) {p : Nat}
    (hp : r.range.Has p) (hp' : r'.range.Has p) : r = r' := by
  by_contra hne
  have : Std.Symm fun h h' : Heap => h.range.Apart h'.range := ⟨fun _ _ => Or.symm⟩
  exact (hi.apart.forall hr hr' hne).not_has hp hp'

/-- Registered heaps say where they lie. -/
theorem containsChunk_iff (hi : Inv s kept) {r : Heap} (hr : r ∈ s.heaps) (p : Nat) :
    containsChunk r.range.base (s.info r.range.base) p = true ↔ r.range.Has p := by
  simp [containsChunk, (hi.info r hr).2, Region.Has]

theorem locates (hi : Inv s true) (hq : Quiescent s) : Locates s := by
  obtain ⟨l, hl, hls⟩ := hi.hangs s.head hi.head
  have hidle : ∀ r ∈ s.heaps, r.range.base ∈ l := fun r hr =>
    hi.all rfl l hl _ ⟨⟨r, hr, rfl⟩, fun t => by rw [hq t]; exact nofun⟩
  constructor
  · intro r hr p hp
    refine ⟨l.length + 1, ?_⟩
    rw [← (hi.info r hr).1]
    refine findFrom_mem hl (hidle r hr) ((hi.containsChunk_iff hr p).mpr hp) (fun y hy hyp => ?_)
    obtain ⟨⟨r', hr', rfl⟩, -⟩ := hls y hy
    rw [hi.heap_unique hr' hr ((hi.containsChunk_iff hr' p).mp hyp) hp]
  · intro p hp
    refine ⟨l.length + 1, findFrom_none hl (fun y hy => ?_)⟩
    obtain ⟨⟨r, hr, rfl⟩, -⟩ := hls y hy
    exact Bool.eq_false_iff.mpr fun hyp => hp r hr ((hi.containsChunk_iff hr p).mp hyp)

/-- A heap whose first address is found is on the list. -/
theorem mem_of_locates (hi : Inv s kept) (hloc : Locates s) {l : List Nat}
    (hl : Chain 0 (fun h => (s.info h).prev) s.head l) (hls : ∀ y ∈ l, Settled s y) {x : Nat}
    (hx : Settled s x) : x ∈ l := by
  obtain ⟨⟨r, hr, rfl⟩, -⟩ := hx
  have hp : r.range.Has r.range.base := ⟨Nat.le_refl _, Nat.lt_add_of_pos_right (hi.range r hr).2.1⟩
  obtain ⟨fuel, hfind⟩ := hloc.1 r hr _ hp
  obtain ⟨y, hy, hyp⟩ := findFrom_sound hl hfind (hi.range r hr).2.2
  obtain ⟨⟨r', hr', rfl⟩, -⟩ := hls y hy
  rwa [hi.heap_unique hr hr' hp ((hi.containsChunk_iff hr' _).mp hyp)]

end Inv

/-- Once all calls have returned, every chunk is found in the arena that owns its heap, and
nothing else is found, exactly if no write of `head_` found it changed since its read. -/
theorem arenaForChunk_locates_iff {s : State τ} {kept : Bool} (h : Run s kept) (hq : Quiescent s) :
    Locates s ↔ kept = true := by
  have hi := Inv.of_run h
  constructor
  · intro hloc
    by_contra hk
    obtain ⟨x, y, hx, hy, hne, e⟩ := hi.lost (by simpa using hk)
    obtain ⟨l, hl, hls⟩ := hi.hangs s.head hi.head
    exact hne (hl.next_inj (hi.mem_of_locates hloc hl hls hx) (hi.mem_of_locates hloc hl hls hy) e)
  · rintro rfl
    exact hi.locates hq

end

/-! ## Two threads -/

/-- Thread by thread: `map` and the three steps of the push. -/
def registration (t : Bool) (raw : Nat) : List (Action Bool) :=
  [.map t 1048576 raw (some raw), .readHead t, .writePrev t, .writeHead t]

theorem Run.steps {τ : Type} [DecidableEq τ] {s s' : State τ} {kept kept' : Bool} (h : Run s kept)
    (acts : List (Action τ))
    (hs : acts.foldlM (fun sk a => (Registry.step sk.1 a).map (·, sk.2 && keepsHead sk.1 a)) (s, kept) =
      some (s', kept')) : Run s' kept' := by
  induction acts generalizing s kept with
  | nil =>
    obtain ⟨rfl, rfl⟩ := Prod.mk.inj (Option.some.inj hs)
    exact h
  | cons a acts ih =>
    rw [List.foldlM_cons] at hs
    cases hstep : Registry.step s a with
    | none => rw [hstep] at hs; cases hs
    | some s₁ =>
      rw [hstep] at hs
      exact ih (.step a h hstep) hs

/-- Both threads read `head_` before either writes it: the heap of the first is lost, and its
own start is said to belong to no arena. -/
theorem racing_registrations_lose_heap :
    ∃ s : State Bool, (∃ kept, Run s kept) ∧ Quiescent s ∧
      ∃ h ∈ s.heaps, h.owner ≠ 0 ∧ ArenaForChunk s h.range.base 0 := by
  refine ⟨_, ⟨_, Run.init.steps ([.map false 1048576 65536 (some 65536),
    .map true 1048576 2097152 (some 2097152), .readHead false, .readHead true, .writePrev false,
    .writePrev true, .writeHead false, .writeHead true]) rfl⟩, fun t => ?_,
    ⟨⟨65536, total 1048576⟩, 65536⟩, ?_, ?_, 2, ?_⟩
  · cases t <;> rfl
  · exact .tail _ (.head _)
  · decide
  · rfl

/-- One after the other, both are found. -/
theorem ordered_registrations_located :
    ∃ s : State Bool, Run s true ∧ Quiescent s ∧ s.heaps.length = 2 ∧ Locates s := by
  have hrun : ∃ s : State Bool, Run s true ∧ Quiescent s ∧ s.heaps.length = 2 :=
    ⟨_, Run.init.steps (registration false 65536 ++ registration true 2097152) rfl,
      fun t => by cases t <;> rfl, rfl⟩
  obtain ⟨s, h, hq, hlen⟩ := hrun
  exact ⟨s, h, hq, hlen, (arenaForChunk_locates_iff h hq).mpr rfl⟩

end MyMalloc.Ptmalloc.Registry
