import MyMalloc.Lib.Region
import MyMalloc.Classic.Tcmalloc.HeapOk

/- Where the spans of the page heap lie.

   `grow_heap` takes the page number of what `mmap` returns and forgets the rest of
   the address. A page of the heap has 8 KiB, the system maps in units of 4 KiB: where
   the answer is no multiple of 8 KiB, the first page of the span begins 4 KiB in
   front of the mapping (`Span.not_inside`). Where it is, every span lies in one
   mapping, however often it was split since, and so do the objects carved from it
   (`spans_inside_mappings`).

   Nothing about the free lists is needed for that: every `Span` object there is lies
   in a mapping, whether it is in use, free or reached through a stale link. -/
namespace MyMalloc.Tcmalloc

open PageHeap

/-- The span is part of one of the regions. -/
def Span.Inside (s : Span) (regions : List Region) : Prop :=
  ∃ r ∈ regions, r.base ≤ pageAddr s.start ∧ pageAddr s.start + s.length * kPageSize ≤ r.base + r.size

theorem pageAddr_eq (pn : Nat) : pageAddr pn = pn * 8192 := Nat.shiftLeft_eq pn 13

theorem pageAddr_pageNumber (p : Nat) : pageAddr (pageNumber p) = p - p % 8192 := by
  have hshift : pageNumber p = p / 8192 := Nat.shiftRight_eq_div_pow p 13
  rw [pageAddr_eq, hshift]
  omega

theorem Span.Inside.part {s s' : Span} {regions : List Region} (h : s.Inside regions)
    (hlow : s.start ≤ s'.start) (hup : s'.start + s'.length ≤ s.start + s.length) : s'.Inside regions := by
  obtain ⟨r, hr, hbase, hend⟩ := h
  have ha := pageAddr_eq s.start
  have ha' := pageAddr_eq s'.start
  have hl : s.length * kPageSize = s.length * 8192 := rfl
  have hl' : s'.length * kPageSize = s'.length * 8192 := rfl
  exact ⟨r, hr, by omega, by omega⟩

theorem Span.Inside.mono {s : Span} {regions regions' : List Region} (h : s.Inside regions)
    (hsub : ∀ r ∈ regions, r ∈ regions') : s.Inside regions' := by
  obtain ⟨r, hr, hin⟩ := h
  exact ⟨r, hsub r hr, hin⟩

/-! ## What the steps of alloc_span keep -/

section range
variable {h : PageHeap} {g : Nat}

theorem modify_range {f : Span → Span} (hstart : (f (h.span g)).start = (h.span g).start)
    (hlength : (f (h.span g)).length = (h.span g).length) (x : Nat) :
    ((h.modify g f).span x).start = (h.span x).start ∧ ((h.modify g f).span x).length = (h.span x).length := by
  rcases eq_or_ne x g with e | e
  · subst e
    rw [modify_span_self]
    exact ⟨hstart, hlength⟩
  · rw [modify_span_of_ne e]
    exact ⟨rfl, rfl⟩

theorem pushFree_range (x : Nat) :
    ((h.pushFree g).span x).start = (h.span x).start ∧ ((h.pushFree g).span x).length = (h.span x).length := by
  unfold PageHeap.pushFree
  dsimp only
  split
  · have h₁ := modify_range (h := h) (g := g) (f := ({ · with next := h.free (h.span g).length })) rfl rfl x
    split
    · have h₂ := modify_range (h := h.modify g ({ · with next := h.free (h.span g).length })) (g := g)
        (f := ({ · with prev := 0 })) rfl rfl x
      exact ⟨h₂.1.trans h₁.1, h₂.2.trans h₁.2⟩
    · have h₂ := modify_range (h := h.modify g ({ · with next := h.free (h.span g).length }))
        (g := h.free (h.span g).length) (f := ({ · with prev := g })) rfl rfl x
      have h₃ := modify_range (h := (h.modify g ({ · with next := h.free (h.span g).length })).modify
        (h.free (h.span g).length) ({ · with prev := g })) (g := g) (f := ({ · with prev := 0 })) rfl rfl x
      exact ⟨h₃.1.trans (h₂.1.trans h₁.1), h₃.2.trans (h₂.2.trans h₁.2)⟩
  · exact modify_range (h := h) (g := g) (f := ({ · with next := h.largeSet, prev := 0 })) rfl rfl x

theorem split_range {n : Nat} (hg : g ≤ h.spans) :
    ((h.split n g).span g).start = (h.span g).start ∧
      ((h.split n g).span g).length = min n (h.span g).length := by
  unfold PageHeap.split
  dsimp only
  split
  · next hn =>
    have hself : (h.new (remainderOf n (h.span g))).1.span g = h.span g := Function.update_of_ne (by omega) _ _
    have hstart := (pushFree_range (h := (h.new (remainderOf n (h.span g))).1) (g := h.spans + 1) g).1
    rw [hself] at hstart
    rw [modify_span_self]
    exact ⟨hstart, (Nat.min_eq_left hn.le).symm⟩
  · next hn => exact ⟨rfl, (Nat.min_eq_right (Nat.le_of_not_lt hn)).symm⟩

theorem finishAlloc_range {n : Nat} (hg : g ≤ h.spans) :
    ((h.finishAlloc n g).span g).start = (h.span g).start ∧
      ((h.finishAlloc n g).span g).length = min n (h.span g).length := by
  have hmark := modify_range (h := h.split n g) (g := g)
    (f := ({ · with state := .inUse, sizeClass := kNumClasses })) rfl rfl g
  have hcut := split_range (n := n) hg
  exact ⟨hmark.1.trans hcut.1, hmark.2.trans hcut.2⟩

end range

/-- Every span lies in one region, and every link is null or a span. -/
structure Contained (regions : List Region) (h : PageHeap) : Prop where
  free : ∀ i, h.free i ≤ h.spans
  large : h.largeSet ≤ h.spans
  next : ∀ g, (h.span g).next ≤ h.spans
  inside : ∀ g, 1 ≤ g → g ≤ h.spans → (h.span g).Inside regions

namespace Contained

variable {regions regions' : List Region} {h : PageHeap} {g n : Nat}

variable (ok : Contained regions h)
include ok

theorem mono (hsub : ∀ r ∈ regions, r ∈ regions') : Contained regions' h :=
  ⟨ok.free, ok.large, ok.next, fun g h1 h2 => (ok.inside g h1 h2).mono hsub⟩

theorem modify {f : Span → Span} (hnext : (f (h.span g)).next ≤ h.spans)
    (hin : 1 ≤ g → g ≤ h.spans → (f (h.span g)).Inside regions) : Contained regions (h.modify g f) := by
  refine ⟨ok.free, ok.large, fun x => ?_, fun x h1 h2 => ?_⟩
  · show (Function.update h.span g (f (h.span g)) x).next ≤ h.spans
    rw [Function.update_apply]
    split
    · exact hnext
    · exact ok.next x
  · show (Function.update h.span g (f (h.span g)) x).Inside regions
    rw [Function.update_apply]
    split
    · next e => exact hin (e ▸ h1) (e ▸ h2)
    · exact ok.inside x h1 h2

theorem relink {f : Span → Span} (hstart : (f (h.span g)).start = (h.span g).start)
    (hlength : (f (h.span g)).length = (h.span g).length) (hnext : (f (h.span g)).next ≤ h.spans) :
    Contained regions (h.modify g f) :=
  ok.modify hnext fun h1 h2 => (ok.inside g h1 h2).part (Nat.le_of_eq hstart.symm)
    (by rw [hstart, hlength])

theorem new {s : Span} (hnext : s.next = 0) (hin : s.Inside regions) :
    Contained regions (h.new s).1 := by
  refine ⟨fun i => Nat.le_succ_of_le (ok.free i), Nat.le_succ_of_le ok.large, fun x => ?_, fun x h1 h2 => ?_⟩
  · show (Function.update h.span (h.spans + 1) s x).next ≤ h.spans + 1
    rw [Function.update_apply]
    split
    · omega
    · exact Nat.le_succ_of_le (ok.next x)
  · show (Function.update h.span (h.spans + 1) s x).Inside regions
    rw [Function.update_apply]
    split
    · exact hin
    · next hne => exact ok.inside x h1 (Nat.le_of_lt_succ (Nat.lt_of_le_of_ne h2 hne))

theorem popFree (i : Nat) : Contained regions (h.popFree i) := by
  have hfree : Contained regions { h with free := Function.update h.free i (h.span (h.free i)).next } := by
    refine ⟨fun j => ?_, ok.large, ok.next, ok.inside⟩
    show Function.update h.free i _ j ≤ h.spans
    rw [Function.update_apply]
    split
    · exact ok.next _
    · exact ok.free j
  simp only [PageHeap.popFree]
  split
  · exact hfree
  · exact hfree.relink rfl rfl (ok.next _)

theorem pushFree (hg : g ≤ h.spans) : Contained regions (h.pushFree g) := by
  unfold PageHeap.pushFree
  dsimp only
  split
  · -- the list of its length: three links change, then the head
    have h₁ : Contained regions (h.modify g ({ · with next := h.free (h.span g).length })) :=
      ok.relink rfl rfl (ok.free _)
    have h₂ : Contained regions (if h.free (h.span g).length = 0 then
        h.modify g ({ · with next := h.free (h.span g).length })
        else (h.modify g ({ · with next := h.free (h.span g).length })).modify
          (h.free (h.span g).length) ({ · with prev := g })) := by
      split
      · exact h₁
      · exact h₁.relink rfl rfl (h₁.next _)
    have h₃ := h₂.relink (g := g) (f := ({ · with prev := 0 })) rfl rfl (h₂.next g)
    refine ⟨fun j => ?_, h₃.large, h₃.next, h₃.inside⟩
    rcases eq_or_ne j (h.span g).length with e | e
    · subst e
      refine Nat.le_trans (Nat.le_of_eq (Function.update_self ..)) (Nat.le_trans hg (Nat.le_of_eq ?_))
      split <;> rfl
    · exact Nat.le_trans (Nat.le_of_eq (Function.update_of_ne e _ _)) (h₃.free j)
  · have h₁ : Contained regions (h.modify g ({ · with next := h.largeSet, prev := 0 })) :=
      ok.relink rfl rfl ok.large
    exact ⟨h₁.free, hg, h₁.next, h₁.inside⟩

theorem split (h1 : 1 ≤ g) (h2 : g ≤ h.spans) : Contained regions (h.split n g) := by
  unfold PageHeap.split
  dsimp only
  split
  · next hn =>
    have hin := ok.inside g h1 h2
    have hrest : Contained regions (h.new (remainderOf n (h.span g))).1 :=
      ok.new rfl (hin.part (Nat.le_add_right ..) (by dsimp only [remainderOf]; omega))
    have hpush := hrest.pushFree (g := h.spans + 1) (Nat.le_refl _)
    refine hpush.modify (hpush.next g) fun _ _ => ?_
    -- the front keeps its start and is shorter
    have hself : (h.new (remainderOf n (h.span g))).1.span g = h.span g := Function.update_of_ne (by omega) _ _
    have hstart := (pushFree_range (h := (h.new (remainderOf n (h.span g))).1) (g := h.spans + 1) g).1
    rw [hself] at hstart
    have hup : (h.span g).start + n ≤ (h.span g).start + (h.span g).length := by omega
    exact hin.part (Nat.le_of_eq hstart.symm) (hstart.symm ▸ hup)
  · exact ok

theorem finishAlloc (h1 : 1 ≤ g) (h2 : g ≤ h.spans) :
    Contained regions (h.finishAlloc n g) := by
  have hsplit := ok.split (n := n) h1 h2
  have hmark := hsplit.relink (g := g) (f := ({ · with state := .inUse, sizeClass := kNumClasses })) rfl rfl
    (hsplit.next g)
  exact ⟨hmark.free, hmark.large, hmark.next, hmark.inside⟩

end Contained

/-! ## One call of alloc_span -/

/-- The pages `alloc_span` maps when it has to. -/
def growPages (n : Nat) : Nat := if kMaxPages < n then n else kMaxPages

/-- The mapping a call of `alloc_span` obtains. -/
def mappings (n : Nat) (raw : Option Nat) (h : PageHeap) : List Region :=
  match h.findFree n, mmapAnswer (growPages n * kPageSize % 2^64) raw with
  | none, some raw => [⟨raw, growPages n * kPageSize % 2^64⟩]
  | _, _ => []

section step
variable {regions : List Region} {h : PageHeap} {n : Nat} {raw : Option Nat}

theorem pushFree_spans (h : PageHeap) (g : Nat) : (h.pushFree g).spans = h.spans := by
  unfold PageHeap.pushFree
  dsimp only
  split
  · split <;> rfl
  · rfl

theorem spans_le_finishAlloc (h : PageHeap) (n g : Nat) : h.spans ≤ (h.finishAlloc n g).spans := by
  have hsplit : h.spans ≤ (h.split n g).spans := by
    unfold PageHeap.split
    dsimp only
    split
    · refine Nat.le_trans (Nat.le_succ _) (Nat.le_of_eq ?_)
      exact (pushFree_spans (h.new (remainderOf n (h.span g))).1 (h.spans + 1)).symm
    · exact Nat.le_refl _
  exact hsplit

/-- The call's mapping begins and ends with a page, and its size does not wrap. -/
def OnPages (n : Nat) (raw : Option Nat) (h : PageHeap) : Prop :=
  ∀ r ∈ mappings n raw h, kPageSize ∣ r.base ∧ growPages n * kPageSize < 2^64

/-- A fresh region is a span that lies in it. -/
theorem Contained.grow (ok : Contained regions h) {base : Nat} (hpage : kPageSize ∣ base) :
    Contained (⟨base, n * kPageSize⟩ :: regions) (h.addRegion n (some base)).1 := by
  have hin : Span.Inside { zeroSpan with start := pageNumber base, length := n }
      (⟨base, n * kPageSize⟩ :: regions) := by
    have h8 : kPageSize = 8192 := rfl
    have haddr := pageAddr_pageNumber base
    have hzero : base % 8192 = 0 := Nat.mod_eq_zero_of_dvd (h8 ▸ hpage)
    refine ⟨_, List.mem_cons_self, ?_, ?_⟩
    · dsimp only
      omega
    · dsimp only
      omega
  have hmore : Contained (⟨base, n * kPageSize⟩ :: regions) h := ok.mono fun r hr => List.mem_cons_of_mem _ hr
  have hnew := hmore.new rfl hin
  exact ⟨hnew.free, hnew.large, hnew.next, hnew.inside⟩

theorem Contained.takeBest (ok : Contained regions h) (hon : OnPages n raw h) :
    Contained (mappings n raw h ++ regions) (h.takeBest n raw).1 ∧
      (h.takeBest n raw).2 ≤ (h.takeBest n raw).1.spans := by
  unfold PageHeap.takeBest OnPages mappings at *
  cases hfind : h.findFree n with
  | some i =>
    dsimp only
    refine ⟨ok.popFree i, ?_⟩
    rw [(popFree_spans i).1]
    exact ok.free i
  | none =>
    rw [hfind] at hon
    dsimp only
    rw [growHeap, show (if kMaxPages < n then n else kMaxPages) = growPages n from rfl]
    cases hmap : mmapAnswer (growPages n * kPageSize % 2^64) raw with
    | none => exact ⟨ok, Nat.zero_le _⟩
    | some base =>
      rw [hmap] at hon
      obtain ⟨hpage, hlt⟩ := hon _ List.mem_cons_self
      refine ⟨?_, Nat.le_refl _⟩
      dsimp only
      rw [Nat.mod_eq_of_lt hlt]
      exact ok.grow hpage

theorem Contained.allocSpan (ok : Contained regions h) (hon : OnPages n raw h) :
    Contained (mappings n raw h ++ regions) (h.allocSpan n raw).1 ∧
      (h.allocSpan n raw).2 ≤ (h.allocSpan n raw).1.spans := by
  obtain ⟨htake, hle⟩ := ok.takeBest hon
  unfold PageHeap.allocSpan
  dsimp only
  split
  · exact ⟨htake, Nat.zero_le _⟩
  · next hne =>
    exact ⟨htake.finishAlloc (Nat.pos_of_ne_zero hne) hle, Nat.le_trans hle (spans_le_finishAlloc ..)⟩

end step

theorem mem_buildFreelist_inside {start length size a : Nat} (ha : a ∈ buildFreelist start length size) :
    pageAddr start ≤ a ∧ a + size ≤ pageAddr start + length * kPageSize := by
  obtain ⟨i, hi, rfl⟩ := List.mem_map.mp (List.mem_reverse.mp ha)
  have hlt := List.mem_range.mp hi
  have hroom : (i + 1) * size ≤ length * kPageSize :=
    Nat.le_trans (Nat.mul_le_mul_right size hlt) (Nat.div_mul_le_self ..)
  rw [Nat.succ_mul] at hroom
  omega

/-! ## Runs -/

/-- The page heap, what `mmap` returned so far and the spans handed out. -/
structure Supply where
  heap : PageHeap
  regions : List Region
  handed : List Nat

namespace Supply

def start : Supply := ⟨emptyHeap, [], []⟩

/-- A call of `alloc_span`; `raw` is what `mmap` answers if it is asked. -/
def alloc (p : Supply) (n : Nat) (raw : Option Nat) : Supply :=
  let r := p.heap.allocSpan n raw
  ⟨r.1, mappings n raw p.heap ++ p.regions, if r.2 = 0 then p.handed else r.2 :: p.handed⟩

/-- The holder of a span writes the fields that are its own. -/
def use (p : Supply) (g cls refs : Nat) (objects : List Nat) (prev next : Nat) : Supply :=
  { p with heap := p.heap.modify g (fun s => { s with
      sizeClass := cls, refcount := refs, freelist := objects, prev := prev, next := next }) }

/-- All that is known of `mmap`: a region of the requested length, in units of 4 KiB, that is
    fresh. -/
def Granted (p : Supply) (n : Nat) (raw : Option Nat) : Prop :=
  ∀ r ∈ mappings n raw p.heap, 4096 ∣ r.base ∧ r.base ≠ 0 ∧ r.base + r.size ≤ 2^63 ∧ ∀ r' ∈ p.regions, r'.Apart r

/-- What is reached by allocations that meet `ok`, with spans used in between. -/
inductive Reached (ok : Supply → Nat → Option Nat → Prop) : Supply → Prop where
  | start : Reached ok start
  | alloc {p : Supply} {n : Nat} {raw : Option Nat} : Reached ok p → ok p n raw → Reached ok (p.alloc n raw)
  | use {p : Supply} {g cls refs : Nat} {objects : List Nat} {prev next : Nat} : Reached ok p → g ∈ p.handed →
      next ≤ p.heap.spans → Reached ok (p.use g cls refs objects prev next)

theorem Reached.mono {ok ok' : Supply → Nat → Option Nat → Prop} (himp : ∀ p n raw, ok p n raw → ok' p n raw)
    {p : Supply} (h : Reached ok p) : Reached ok' p := by
  induction h with
  | start => exact .start
  | alloc _ hok ih => exact .alloc ih (himp _ _ _ hok)
  | use _ hg hnext ih => exact .use ih hg hnext

/-- Every span that was handed out exists. -/
structure Inv (p : Supply) : Prop where
  contained : Contained p.regions p.heap
  handed : ∀ g ∈ p.handed, 1 ≤ g ∧ g ≤ p.heap.spans

theorem spans_le_allocSpan (n : Nat) (raw : Option Nat) (h : PageHeap) : h.spans ≤ (h.allocSpan n raw).1.spans := by
  have htake : h.spans ≤ (h.takeBest n raw).1.spans := by
    unfold PageHeap.takeBest
    cases h.findFree n with
    | some i => exact Nat.le_of_eq (popFree_spans i).1.symm
    | none =>
      dsimp only
      rw [growHeap]
      cases mmapAnswer _ raw with
      | none => exact Nat.le_refl _
      | some base => exact Nat.le_succ _
  unfold PageHeap.allocSpan
  dsimp only
  split
  · exact htake
  · exact Nat.le_trans htake (spans_le_finishAlloc ..)

theorem Reached.inv {p : Supply} (h : Reached (fun p n raw => OnPages n raw p.heap) p) : Inv p := by
  induction h with
  | start => exact ⟨⟨fun _ => Nat.le_refl 0, Nat.le_refl 0, fun _ => Nat.le_refl 0, by
      intro g h1 h2
      exact absurd (Nat.le_trans h1 h2) (by decide)⟩, fun g hg => nomatch hg⟩
  | @alloc p n raw _ hon ih =>
    obtain ⟨hcont, hle⟩ := ih.contained.allocSpan hon
    refine ⟨hcont, fun g hg => ?_⟩
    have hold : g ∈ p.handed → 1 ≤ g ∧ g ≤ (p.alloc n raw).heap.spans := fun hg =>
      ⟨(ih.handed g hg).1, Nat.le_trans (ih.handed g hg).2 (spans_le_allocSpan n raw p.heap)⟩
    by_cases h0 : (p.heap.allocSpan n raw).2 = 0
    · exact hold (by simpa [Supply.alloc, h0] using hg)
    · rcases List.mem_cons.mp (by simpa [Supply.alloc, h0] using hg) with rfl | hg
      · exact ⟨Nat.pos_of_ne_zero h0, hle⟩
      · exact hold hg
  | @use p g cls refs objects prev next _ hg hnext ih =>
    have hlink := ih.contained.relink (g := g) (f := fun s => { s with
      sizeClass := cls, refcount := refs, freelist := objects, prev := prev, next := next }) rfl rfl hnext
    exact ⟨hlink, ih.handed⟩

/-- As long as every answer of `mmap` is a multiple of the page size, and no size wraps, every span
    handed out lies in one region, with all its objects. -/
theorem spans_inside_mappings {p : Supply}
    (h : Reached (fun p n raw => Granted p n raw ∧ OnPages n raw p.heap) p) {g : Nat} (hg : g ∈ p.handed) :
    (p.heap.span g).Inside p.regions ∧
      ∀ size, ∀ a ∈ buildFreelist (p.heap.span g).start (p.heap.span g).length size,
        pageAddr (p.heap.span g).start ≤ a ∧
          a + size ≤ pageAddr (p.heap.span g).start + (p.heap.span g).length * kPageSize := by
  have inv := (h.mono fun _ _ _ hok => hok.2).inv
  obtain ⟨h1, h2⟩ := inv.handed g hg
  exact ⟨inv.contained.inside g h1 h2, fun _ _ => mem_buildFreelist_inside⟩

/-- Otherwise the first span cut from the region begins in front of it. -/
theorem not_inside_of_odd {p : Supply} {n base : Nat} (hfind : p.heap.findFree n = none) (hn : 1 ≤ n)
    (hsize : growPages n * kPageSize < 2^64) (hfit : Granted p n (some base)) (hodd : ¬ kPageSize ∣ base) :
    ∃ g ∈ (p.alloc n (some base)).handed,
      ¬ ((p.alloc n (some base)).heap.span g).Inside (p.alloc n (some base)).regions := by
  have h256 : kMaxPages = 256 := rfl
  have h8 : kPageSize = 8192 := rfl
  have hgrow : n ≤ growPages n ∧ 1 ≤ growPages n := by
    unfold growPages
    split <;> omega
  have hbytes : growPages n * kPageSize % 2^64 ≠ 0 := by
    rw [Nat.mod_eq_of_lt hsize]
    exact Nat.mul_ne_zero (Nat.ne_of_gt hgrow.2) (by decide)
  have hanswer : mmapAnswer (growPages n * kPageSize % 2^64) (some base) = some base := if_neg hbytes
  have hmap : mappings n (some base) p.heap = [⟨base, growPages n * kPageSize % 2^64⟩] := by
    unfold mappings
    rw [hfind, hanswer]
  -- the span is the new region's, cut to its first `n` pages
  let h₁ := (p.heap.addRegion (growPages n) (some base)).1
  have halloc : p.heap.allocSpan n (some base) = (h₁.finishAlloc n (p.heap.spans + 1), p.heap.spans + 1) := by
    rw [PageHeap.allocSpan, takeBest, hfind]
    dsimp only
    rw [growHeap, show (if kMaxPages < n then n else kMaxPages) = growPages n from rfl, hanswer]
    exact if_neg (Nat.succ_ne_zero _)
  have hspan : h₁.span (p.heap.spans + 1) = { zeroSpan with start := pageNumber base, length := growPages n } :=
    Function.update_self ..
  obtain ⟨hstart, hlength⟩ := finishAlloc_range (h := h₁) (n := n) (g := p.heap.spans + 1) (Nat.le_refl _)
  rw [hspan] at hstart hlength
  refine ⟨p.heap.spans + 1, ?_, ?_⟩
  · unfold alloc
    rw [halloc]
    exact List.mem_cons_self
  unfold alloc
  rw [halloc, hmap]
  rintro ⟨r, hr, hlow, hup⟩
  dsimp only at hlow hup
  rw [hstart, pageAddr_pageNumber] at hlow hup
  rw [hlength, Nat.min_eq_left hgrow.1, h8] at hup
  have hmod : base % 8192 ≠ 0 := fun e => hodd (h8 ▸ Nat.dvd_of_mod_eq_zero e)
  rcases List.mem_cons.mp hr with rfl | hr
  · dsimp only at hlow
    omega
  · -- no other region has the first byte of the new one
    obtain ⟨-, -, -, hapart⟩ := hfit _ (hmap ▸ List.mem_cons_self)
    have hlt := Nat.mod_lt base (show 0 < 8192 by decide)
    refine (hapart r hr).not_has (a := base) ⟨by omega, by omega⟩ ⟨Nat.le_refl _, ?_⟩
    dsimp only
    omega

/-! ## The first allocation -/

theorem mappings_start (base : Nat) : mappings 1 (some base) emptyHeap = [⟨base, 2097152⟩] := by
  unfold mappings
  rw [findFree_empty]
  rfl

theorem granted_start {base : Nat} (hunit : 4096 ∣ base) (hne : base ≠ 0) (hup : base + 2097152 ≤ 2^63) :
    Granted start 1 (some base) := by
  unfold Granted start
  rw [mappings_start]
  intro r hr
  obtain rfl := List.mem_singleton.mp hr
  exact ⟨hunit, hne, hup, fun r' hr' => nomatch hr'⟩

theorem first_span_inside : Reached (fun p n raw => Granted p n raw ∧ OnPages n raw p.heap)
      (start.alloc 1 (some 2097152)) ∧
    1 ∈ (start.alloc 1 (some 2097152)).handed ∧
    ((start.alloc 1 (some 2097152)).heap.span 1).Inside (start.alloc 1 (some 2097152)).regions := by
  have hpages : OnPages 1 (some 2097152) emptyHeap := by
    unfold OnPages
    rw [mappings_start]
    intro r hr
    obtain rfl := List.mem_singleton.mp hr
    exact ⟨by decide, by decide⟩
  have hreach : Reached (fun p n raw => Granted p n raw ∧ OnPages n raw p.heap) (start.alloc 1 (some 2097152)) :=
    .alloc .start ⟨granted_start (by decide) (by decide) (by decide), hpages⟩
  have hanswer : mmapAnswer ((if kMaxPages < 1 then 1 else kMaxPages) * kPageSize % 2^64) (some 2097152) =
      some 2097152 := rfl
  have hhanded : 1 ∈ (start.alloc 1 (some 2097152)).handed := by
    unfold alloc start
    rw [allocSpan_empty_some hanswer]
    exact List.mem_cons_self
  exact ⟨hreach, hhanded, (spans_inside_mappings hreach hhanded).1⟩

/-- `mmap` answers 12288: the span begins at 8192. -/
theorem first_span_outside : ∃ p, Reached Granted p ∧ ∃ g ∈ p.handed, ¬ (p.heap.span g).Inside p.regions :=
  have hgranted : Granted start 1 (some 12288) := granted_start (by decide) (by decide) (by decide)
  ⟨_, .alloc .start hgranted, not_inside_of_odd (findFree_empty 1) (by decide) (by decide) hgranted (by decide)⟩

end Supply

end MyMalloc.Tcmalloc
