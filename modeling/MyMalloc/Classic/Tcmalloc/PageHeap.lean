import Mathlib.Algebra.Ring.Nat
import MyMalloc.Lib.Links
import MyMalloc.Classic.Tcmalloc.SizeClasses

/- Spans, the page map and the page heap (`span.h`, `page_map.cpp`,
   `page_heap.cpp`).

   `Span` objects are records in a store indexed by their address; address 0 is
   null, `new` takes the next address and `delete` only ends the object's life,
   so a stale pointer still reads what was last written. The span lists of the
   heap are the source's intrusive lists, through `prev` and `next`. The page
   map is the radix tree flattened: a leaf that does not exist yet reads as
   null, as in `PageMap::get`.

   `alloc_span` takes what `mmap` would answer as an argument.

   The heap does not keep its own representation invariant. A span that comes
   from `grow_heap` was never counted in `free_bytes`, but `alloc_span`
   subtracts it; and the remainder of a split is put on a free list while the
   page map still names the span it was cut from. `sound_iff_never_grown` says
   that this is not a corner case: along any run of calls the invariant holds
   exactly as long as no call has obtained memory. -/
namespace MyMalloc.Tcmalloc

inductive SpanState where
  | inUse
  | onNormalFreelist
  | onReturnedFreelist
  deriving DecidableEq, Repr

/-- `Span`; the free list of objects is the list of their addresses. -/
structure Span where
  start : Nat
  length : Nat
  sizeClass : Nat
  state : SpanState
  refcount : Nat
  freelist : List Nat
  prev : Nat
  next : Nat

/-- `new Span()`. -/
def zeroSpan : Span := ⟨0, 0, 0, .inUse, 0, [], 0, 0⟩

def pageNumber (p : Nat) : Nat := p >>> kPageShift
def pageAddr (pn : Nat) : Nat := pn <<< kPageShift

/-- The root and leaf index of a page number: 512 roots of 1024 entries. -/
def slot (pn : Nat) : Nat × Nat := ((pn >>> 10) &&& 511, pn &&& 1023)

structure PageHeap where
  span : Nat → Span
  spans : Nat
  deleted : List Nat
  free : Nat → Nat
  largeSet : Nat
  pagemap : Nat × Nat → Nat
  systemBytes : Nat
  freeBytes : Nat

/-- The constructor `PageHeap()`, and an empty `PageMap`. -/
def emptyHeap : PageHeap where
  span := fun _ => zeroSpan
  spans := 0
  deleted := []
  free := fun _ => 0
  largeSet := 0
  pagemap := fun _ => 0
  systemBytes := 0
  freeBytes := 0

namespace PageHeap

def modify (g : Nat) (f : Span → Span) (h : PageHeap) : PageHeap :=
  { h with span := Function.update h.span g (f (h.span g)) }

/-- `new Span()` with its fields set; its address is the result. -/
def new (s : Span) (h : PageHeap) : PageHeap × Nat :=
  let g := h.spans + 1
  ({ h with spans := g, span := Function.update h.span g s }, g)

def delete (g : Nat) (h : PageHeap) : PageHeap := { h with deleted := g :: h.deleted }

def get (h : PageHeap) (pn : Nat) : Nat := h.pagemap (slot pn)

/-- `PageMap::map_span`: the loop over the pages of a span. -/
def mapPages (start g : Nat) : Nat → (Nat × Nat → Nat) → Nat × Nat → Nat
  | 0, pm => pm
  | n + 1, pm => Function.update (mapPages start g n pm) (slot (start + n)) g

def mapSpan (g : Nat) (h : PageHeap) : PageHeap :=
  { h with pagemap := mapPages (h.span g).start g (h.span g).length h.pagemap }

/-- Unlink the first span of `free_[i]`. -/
def popFree (i : Nat) (h : PageHeap) : PageHeap :=
  let next := (h.span (h.free i)).next
  let h := { h with free := Function.update h.free i next }
  if next = 0 then h else h.modify next ({ · with prev := 0 })

/-- Put a span at the front of the list of its length. -/
def pushFree (g : Nat) (h : PageHeap) : PageHeap :=
  let len := (h.span g).length
  if len ≤ kMaxPages then
    let old := h.free len
    let h := h.modify g ({ · with next := old })
    let h := if old = 0 then h else h.modify old ({ · with prev := g })
    let h := h.modify g ({ · with prev := 0 })
    { h with free := Function.update h.free len g }
  else
    let h := h.modify g ({ · with next := h.largeSet, prev := 0 })
    { h with largeSet := g }

/-- `grow_heap` once `mmap` has answered. -/
def addRegion (n : Nat) (raw : Option Nat) (h : PageHeap) : PageHeap × Nat :=
  match raw with
  | none => (h, 0)
  | some raw =>
    let r := h.new { zeroSpan with start := pageNumber raw, length := n }
    let h := { r.1 with systemBytes := (r.1.systemBytes + n * kPageSize) % 2^64 }
    (h.mapSpan r.2, r.2)

end PageHeap

/-- What `mmap` answers for `bytes` bytes: a mapping of no bytes is refused. -/
def mmapAnswer (bytes : Nat) (raw : Option Nat) : Option Nat := if bytes = 0 then none else raw

theorem mmapAnswer_eq_some {bytes raw : Nat} {answer : Option Nat}
    (h : mmapAnswer bytes answer = some raw) : bytes ≠ 0 ∧ answer = some raw := by
  by_cases hb : bytes = 0
  · simp [mmapAnswer, hb] at h
  · rw [mmapAnswer, if_neg hb] at h
    exact ⟨hb, h⟩

namespace PageHeap

def growHeap (n : Nat) (raw : Option Nat) (h : PageHeap) : PageHeap × Nat :=
  h.addRegion n (mmapAnswer (n * kPageSize % 2^64) raw)

/-- The search of `alloc_span`: the first list from `free_[n]` on that is not empty. -/
def findFree (n : Nat) (h : PageHeap) : Option Nat :=
  (List.range' n (kMaxPages + 1 - n)).find? (fun i => h.free i ≠ 0)

/-- Cut the span down to `n` pages; what is left goes to the free list of its length. -/
def split (n best : Nat) (h : PageHeap) : PageHeap :=
  let b := h.span best
  if n < b.length then
    let r := h.new { zeroSpan with
      start := b.start + n, length := b.length - n, state := .onNormalFreelist,
      sizeClass := kNumClasses }
    (r.1.pushFree r.2).modify best ({ · with length := n })
  else h

/-- The end of `alloc_span`, from the split on. -/
def finishAlloc (n best : Nat) (h : PageHeap) : PageHeap :=
  let h := h.split n best
  let h := h.modify best ({ · with state := .inUse, sizeClass := kNumClasses })
  let h := h.mapSpan best
  { h with freeBytes :=
      (h.freeBytes + 2^64 - (h.span best).length * kPageSize % 2^64) % 2^64 }

/-- The span `alloc_span` starts from: the first of a free list, or fresh pages. -/
def takeBest (n : Nat) (raw : Option Nat) (h : PageHeap) : PageHeap × Nat :=
  match h.findFree n with
  | some i => (h.popFree i, h.free i)
  | none => h.growHeap (if kMaxPages < n then n else kMaxPages) raw

def allocSpan (n : Nat) (raw : Option Nat) (h : PageHeap) : PageHeap × Nat :=
  let r := h.takeBest n raw
  if r.2 = 0 then (r.1, 0) else (r.1.finishAlloc n r.2, r.2)

def allocLarge (bytes : Nat) (raw : Option Nat) (h : PageHeap) : PageHeap × Nat :=
  let r := h.allocSpan (((bytes + kPageSize - 1) % 2^64) >>> kPageShift) raw
  if r.2 = 0 then r else (r.1.modify r.2 ({ · with sizeClass := kNumClasses }), r.2)

/-- Unlink a neighbour from its free list. A span of `large_set` that is first there stays
its head, as in the source. -/
def unlink (g : Nat) (h : PageHeap) : PageHeap :=
  let s := h.span g
  let h :=
    if s.prev ≠ 0 then h.modify s.prev ({ · with next := s.next })
    else if s.length ≤ kMaxPages then { h with free := Function.update h.free s.length s.next }
    else h
  if s.next ≠ 0 then h.modify s.next ({ · with prev := s.prev }) else h

/-- The neighbour before the span, if `coalesce` takes it. -/
def freeBefore (g : Nat) (h : PageHeap) : Option Nat :=
  let s := h.span g
  let p := h.get (s.start - 1)
  if 0 < s.start ∧ p ≠ 0 ∧ (h.span p).state = .onNormalFreelist ∧
      (h.span p).start + (h.span p).length = s.start then some p else none

/-- The neighbour after the span, if `coalesce` takes it. -/
def freeAfter (g : Nat) (h : PageHeap) : Option Nat :=
  let s := h.span g
  let q := h.get (s.start + s.length)
  if q ≠ 0 ∧ (h.span q).state = .onNormalFreelist then some q else none

def mergeBefore (g : Nat) (h : PageHeap) : PageHeap :=
  match h.freeBefore g with
  | none => h
  | some p =>
    let h := h.unlink p
    let h := h.modify g (fun s => { s with
      start := (h.span p).start, length := (s.length + (h.span p).length) % 2^64 })
    h.delete p

def mergeAfter (g : Nat) (h : PageHeap) : PageHeap :=
  match h.freeAfter g with
  | none => h
  | some q =>
    let h := h.unlink q
    let h := h.modify g (fun s => { s with length := (s.length + (h.span q).length) % 2^64 })
    h.delete q

def coalesce (g : Nat) (h : PageHeap) : PageHeap := (h.mergeBefore g).mergeAfter g

/-- `free_span` up to the call of `coalesce`. -/
def markFree (g : Nat) (h : PageHeap) : PageHeap :=
  let h := h.modify g ({ · with state := .onNormalFreelist, sizeClass := kNumClasses })
  { h with freeBytes := (h.freeBytes + (h.span g).length * kPageSize) % 2^64 }

def freeSpan (g : Nat) (h : PageHeap) : PageHeap := ((h.markFree g).coalesce g).pushFree g

end PageHeap

/-- `Span::build_freelist`: the objects of a span, the last one first. -/
def buildFreelist (start length objectSize : Nat) : List Nat :=
  ((List.range (length * kPageSize / objectSize)).map
    (fun i => pageAddr start + i * objectSize)).reverse

/-! ## The representation invariant -/

def Span.Has (s : Span) (pn : Nat) : Prop := s.start ≤ pn ∧ pn < s.start + s.length

/-- The page heap with what its callers know: the page ranges `grow_heap` obtained and the
spans in use. -/
structure World where
  heap : PageHeap
  grown : List (Nat × Nat)
  inUse : List Nat

/-- The spans of the free lists, `L k` those of `free_[k]` and `big` those of `large_set`. -/
def freeSpans (L : Nat → List Nat) (big : List Nat) : List Nat :=
  (List.range' 1 kMaxPages).flatMap L ++ big

structure Represents (w : World) (L : Nat → List Nat) (big : List Nat) : Prop where
  chain : ∀ k, 1 ≤ k → k ≤ kMaxPages →
    Chain 0 (fun g => (w.heap.span g).next) (w.heap.free k) (L k)
  large : Chain 0 (fun g => (w.heap.span g).next) w.heap.largeSet big
  sized : ∀ k, 1 ≤ k → k ≤ kMaxPages → ∀ g ∈ L k, (w.heap.span g).length = k
  apart : (w.inUse ++ freeSpans L big).Pairwise
    (fun g g' => ∀ pn, ¬ ((w.heap.span g).Has pn ∧ (w.heap.span g').Has pn))
  cover : ∀ pn, (∃ r ∈ w.grown, r.1 ≤ pn ∧ pn < r.1 + r.2) ↔
    ∃ g ∈ w.inUse ++ freeSpans L big, (w.heap.span g).Has pn
  inUseMapped : ∀ g ∈ w.inUse, ∀ pn, (w.heap.span g).Has pn → w.heap.get pn = g
  freeMapped : ∀ g ∈ freeSpans L big, w.heap.get (w.heap.span g).start = g ∧
    w.heap.get ((w.heap.span g).start + (w.heap.span g).length - 1) = g
  bytes : w.heap.freeBytes =
    kPageSize * ((freeSpans L big).map (fun g => (w.heap.span g).length)).sum

def RepInv (w : World) : Prop := ∃ L big, Represents w L big

/-- The calls of the page heap; `raw` is what `mmap` would answer during the call. -/
inductive Call where
  | allocSpan (n : Nat) (raw : Option Nat)
  | freeSpan (g : Nat)

/-- The pages a call of `alloc_span` obtains from `mmap`. -/
def obtained (n : Nat) (raw : Option Nat) (h : PageHeap) : List (Nat × Nat) :=
  let len := if kMaxPages < n then n else kMaxPages
  match h.findFree n, mmapAnswer (len * kPageSize % 2^64) raw with
  | none, some raw => [(pageNumber raw, len)]
  | _, _ => []

/-- One call; a span that is not in use is not freed. -/
def World.step (w : World) : Call → Option World
  | .allocSpan n raw =>
    let r := w.heap.allocSpan n raw
    some ⟨r.1, obtained n raw w.heap ++ w.grown, if r.2 = 0 then w.inUse else r.2 :: w.inUse⟩
  | .freeSpan g =>
    if g ∈ w.inUse then some ⟨w.heap.freeSpan g, w.grown, w.inUse.erase g⟩ else none

/-- Span `q` may be merged with `g`: it is another one, next to it, and it was free when
`free_span` was called. -/
structure MayMerge (w : World) (h : PageHeap) (g q : Nat) : Prop where
  other : q ≠ g
  wasFree : (w.heap.span q).state = .onNormalFreelist
  adjacent : (h.span q).start + (h.span q).length = (h.span g).start ∨
    (h.span g).start + (h.span g).length = (h.span q).start

/-- `coalesce` merges only what it may. -/
def MergesOk (w : World) : Call → Prop
  | .allocSpan _ _ => True
  | .freeSpan g =>
    let h := w.heap.markFree g
    (∀ p, h.freeBefore g = some p → MayMerge w h g p) ∧
      ∀ q, (h.mergeBefore g).freeAfter g = some q → MayMerge w (h.mergeBefore g) g q

def World.run : World → List Call → Option World
  | w, [] => some w
  | w, c :: cs => (w.step c).bind (·.run cs)

/-- The invariant holds in every state of the run, and every merge is a proper one. -/
def World.Sound : World → List Call → Prop
  | w, [] => RepInv w
  | w, c :: cs => RepInv w ∧ MergesOk w c ∧ ∀ w', w.step c = some w' → w'.Sound cs

theorem World.Sound.repInv {w : World} {cs : List Call} (h : w.Sound cs) : RepInv w := by
  cases cs with
  | nil => exact h
  | cons c cs => exact h.1

def World.start : World := ⟨emptyHeap, [], []⟩

theorem repInv_start : RepInv World.start := by
  have hflat : freeSpans (fun _ => []) [] = [] := by simp [freeSpans]
  refine ⟨fun _ => [], [], ⟨fun _ _ _ => rfl, rfl, by simp, ?_, ?_, by simp [World.start], ?_, ?_⟩⟩
  · rw [hflat]; exact List.Pairwise.nil
  · rw [hflat]; simp [World.start]
  · rw [hflat]; simp
  · rw [hflat]; rfl

theorem mapPages_eq_or (start g n : Nat) (pm : Nat × Nat → Nat) (x : Nat × Nat) :
    PageHeap.mapPages start g n pm x = g ∨ PageHeap.mapPages start g n pm x = pm x := by
  induction n with
  | zero => exact .inr rfl
  | succ n ih =>
    rw [PageHeap.mapPages]
    by_cases hx : x = slot (start + n)
    · subst hx; exact .inl (Function.update_self ..)
    · rwa [Function.update_of_ne hx]

theorem findFree_empty (n : Nat) : emptyHeap.findFree n = none := by
  simp [PageHeap.findFree, emptyHeap]

section empty
open PageHeap

/-- Fresh pages as `grow_heap` adds them to an empty heap. -/
def grownHeap (raw len : Nat) : PageHeap := (emptyHeap.addRegion len (some raw)).1

theorem allocSpan_empty_some {n raw : Nat} {answer : Option Nat}
    (h : mmapAnswer ((if kMaxPages < n then n else kMaxPages) * kPageSize % 2^64) answer =
      some raw) :
    emptyHeap.allocSpan n answer =
      ((grownHeap raw (if kMaxPages < n then n else kMaxPages)).finishAlloc n 1, 1) := by
  rw [allocSpan, takeBest, findFree_empty]
  simp only [growHeap, h]
  rfl

theorem allocSpan_empty_none {n : Nat} {answer : Option Nat}
    (h : mmapAnswer ((if kMaxPages < n then n else kMaxPages) * kPageSize % 2^64) answer = none) :
    emptyHeap.allocSpan n answer = (emptyHeap, 0) := by
  rw [allocSpan, takeBest, findFree_empty]
  simp only [growHeap, h]
  rfl

theorem finishAlloc_remainder {raw n : Nat} (hn : n < kMaxPages) :
    ((grownHeap raw kMaxPages).finishAlloc n 1).free (kMaxPages - n) = 2 ∧
      ∀ pn, ((grownHeap raw kMaxPages).finishAlloc n 1).get pn ≠ 2 := by
  have hlen : ((grownHeap raw kMaxPages).span 1).length = kMaxPages := rfl
  have hsplit : ((grownHeap raw kMaxPages).split n 1).free (kMaxPages - n) = 2 ∧
      ((grownHeap raw kMaxPages).split n 1).pagemap = (grownHeap raw kMaxPages).pagemap := by
    simp only [split, hlen, hn, if_true]
    constructor
    · simp [pushFree, PageHeap.new, grownHeap, addRegion, mapSpan, emptyHeap, PageHeap.modify]
    · simp [pushFree, PageHeap.new, grownHeap, addRegion, mapSpan, emptyHeap, PageHeap.modify]
  refine ⟨hsplit.1, fun pn => ?_⟩
  have hpm : ((grownHeap raw kMaxPages).finishAlloc n 1).get pn =
      mapPages (((grownHeap raw kMaxPages).finishAlloc n 1).span 1).start 1
        (((grownHeap raw kMaxPages).finishAlloc n 1).span 1).length
        (mapPages (pageNumber raw) 1 kMaxPages (fun _ => 0)) (slot pn) := by
    show mapPages _ _ _ (PageHeap.modify 1 _ (split n 1 _)).pagemap (slot pn) = _
    rw [PageHeap.modify, hsplit.2]
    rfl
  rw [hpm]
  rcases mapPages_eq_or _ 1 _ (mapPages (pageNumber raw) 1 kMaxPages (fun _ => 0)) (slot pn)
    with e | e
  · rw [e]; decide
  · rcases mapPages_eq_or (pageNumber raw) 1 kMaxPages (fun _ => 0) (slot pn) with e' | e'
    · rw [e, e']; decide
    · rw [e, e']; decide

/-- After the first allocation the invariant is lost: the remainder of a split is not in the
page map, and pages that were never counted are subtracted from `free_bytes`. -/
theorem not_represents_finishAlloc {raw n : Nat} {grown : List (Nat × Nat)} {inUse : List Nat}
    {L : Nat → List Nat} {big : List Nat}
    (hb : (if kMaxPages < n then n else kMaxPages) * kPageSize % 2^64 ≠ 0) :
    ¬ Represents ⟨(grownHeap raw (if kMaxPages < n then n else kMaxPages)).finishAlloc n 1,
      grown, inUse⟩ L big := by
  intro h
  by_cases hn : n < kMaxPages
  · -- the remainder is the first span of its list
    rw [if_neg (by omega)] at h
    obtain ⟨hfree, hmap⟩ := @finishAlloc_remainder raw n hn
    have hc := h.chain (kMaxPages - n) (by omega) (by omega)
    rw [show World.heap _ = _ from rfl, hfree] at hc
    obtain ⟨l, hl, -⟩ := hc.exists_cons (by decide)
    have hmem : 2 ∈ freeSpans L big := by
      refine List.mem_append_left _ (List.mem_flatMap.mpr ⟨kMaxPages - n, ?_, by simp [hl]⟩)
      exact List.mem_range'_1.mpr (by omega)
    exact hmap _ (h.freeMapped 2 hmem).1
  · -- nothing is free, yet `free_bytes` is not zero
    have e : (if kMaxPages < n then n else kMaxPages) = n := by split <;> omega
    rw [e] at h hb
    have hsplit : (grownHeap raw n).split n 1 = grownHeap raw n := by
      have : ((grownHeap raw n).span 1).length = n := rfl
      simp [split, this]
    have hL : ∀ k, 1 ≤ k → k ≤ kMaxPages → L k = [] := by
      intro k h1 h2
      refine (h.chain k h1 h2).eq_nil_iff.mpr ?_
      simp only [finishAlloc, hsplit]
      rfl
    have hbig : big = [] := by
      refine h.large.eq_nil_iff.mpr ?_
      simp only [finishAlloc, hsplit]
      rfl
    have hnil : freeSpans L big = [] := by
      rw [freeSpans, hbig, List.append_nil, List.flatMap_eq_nil_iff]
      intro k hk
      obtain ⟨h1, h2⟩ := List.mem_range'_1.mp hk
      exact hL k h1 (by omega)
    have hbytes := h.bytes
    rw [hnil] at hbytes
    have hval : ((grownHeap raw n).finishAlloc n 1).freeBytes =
        (2^64 - n * kPageSize % 2^64) % 2^64 := by
      simp only [finishAlloc, hsplit]
      simp [mapSpan, PageHeap.modify, grownHeap, addRegion, PageHeap.new, emptyHeap]
    have hz : (2^64 - n * kPageSize % 2^64) % 2^64 = 0 := by
      rw [← hval]; simpa using hbytes
    have : n * kPageSize % 2^64 < 2^64 := Nat.mod_lt _ (by decide)
    omega
/-- As long as `mmap` refuses, an empty heap stays as it is; the first answer breaks it. -/
theorem step_start {c : Call} {w : World} (h : World.start.step c = some w) :
    w = World.start ∨ (w.grown ≠ [] ∧ ¬ RepInv w) := by
  cases c with
  | freeSpan g => simp [World.step, World.start] at h
  | allocSpan n answer =>
    change some (⟨(emptyHeap.allocSpan n answer).1, obtained n answer emptyHeap ++ [],
      if (emptyHeap.allocSpan n answer).2 = 0 then [] else [(emptyHeap.allocSpan n answer).2]⟩ :
      World) = some w at h
    rw [Option.some.injEq] at h
    cases ha : mmapAnswer ((if kMaxPages < n then n else kMaxPages) * kPageSize % 2^64) answer with
    | none =>
      left
      rw [← h, allocSpan_empty_none ha]
      simp only [obtained, findFree_empty, ha, World.start, List.append_nil, if_true]
    | some raw =>
      right
      rw [← h, allocSpan_empty_some ha]
      refine ⟨by simp only [obtained, findFree_empty, ha]; exact List.cons_ne_nil _ _, ?_⟩
      rintro ⟨L, big, hr⟩
      exact not_represents_finishAlloc (mmapAnswer_eq_some ha).1 hr

theorem step_grown {w w' : World} {c : Call} (h : w.step c = some w') (hg : w'.grown = []) :
    w.grown = [] := by
  cases c with
  | allocSpan n raw =>
    simp only [World.step, Option.some.injEq] at h
    rw [← h] at hg
    exact (List.append_eq_nil_iff.mp hg).2
  | freeSpan g =>
    simp only [World.step] at h
    split at h
    · rw [← Option.some.inj h] at hg; exact hg
    · cases h

theorem run_grown {w w' : World} {cs : List Call} (h : w.run cs = some w') (hg : w'.grown = []) :
    w.grown = [] := by
  induction cs generalizing w with
  | nil => rw [Option.some.inj h]; exact hg
  | cons c cs ih =>
    obtain ⟨v, hv, hr⟩ := Option.bind_eq_some_iff.mp h
    exact step_grown hv (ih hr)

/-- Along a run of `alloc_span` and `free_span`, the representation invariant holds in every
state and every merge is proper exactly when no call has obtained pages from `mmap`. -/
theorem sound_iff_never_grown {calls : List Call} {w : World}
    (h : World.start.run calls = some w) : World.start.Sound calls ↔ w.grown = [] := by
  induction calls with
  | nil =>
    have e : w = World.start := (Option.some.inj h).symm
    subst e
    exact ⟨fun _ => rfl, fun _ => repInv_start⟩
  | cons c cs ih =>
    obtain ⟨v, hv, hr⟩ := Option.bind_eq_some_iff.mp h
    have hcall : MergesOk World.start c := by
      cases c with
      | allocSpan n raw => trivial
      | freeSpan g => simp [World.step, World.start] at hv
    rcases step_start hv with rfl | ⟨hgrown, hbroken⟩
    · refine Iff.trans ⟨fun hs => hs.2.2 _ hv, fun hs => ⟨repInv_start, hcall, ?_⟩⟩ (ih hr)
      intro w' hw'
      rw [hv] at hw'
      rwa [← Option.some.inj hw']
    · constructor
      · intro hs
        exact absurd (hs.2.2 _ hv).repInv hbroken
      · intro hg
        exact absurd (run_grown hr hg) hgrown

/-- A run that meets the condition: `mmap` refuses. -/
theorem sound_of_refused :
    World.start.Sound [.allocSpan 1 none, .allocSpan 300 none] :=
  (sound_iff_never_grown (w := World.start) rfl).mpr rfl

/-- One page allocated and freed: the invariant is lost with the first call, and the second
merges the span with itself. -/
theorem alloc_free_unsound :
    (World.start.run [.allocSpan 1 (some 2097152), .freeSpan 1]).isSome = true ∧
      ¬ World.start.Sound [.allocSpan 1 (some 2097152), .freeSpan 1] ∧
      ((emptyHeap.allocSpan 1 (some 2097152)).1.markFree 1).freeAfter 1 = some 1 := by
  refine ⟨by decide, fun hs => ?_, by decide +kernel⟩
  have hstep := hs.2.2 _ rfl
  rcases step_start (c := .allocSpan 1 (some 2097152)) rfl with e | e
  · have : ([(256, 256)] : List (Nat × Nat)) = [] := congrArg World.grown e
    exact absurd this (by decide)
  · exact e.2 hstep.repInv

end empty

end MyMalloc.Tcmalloc
