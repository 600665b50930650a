import MyMalloc.Classic.Tcmalloc.Runs
import MyMalloc.Classic.Jemalloc.Bookkeeping

/- Which threads get a thread cache (`tcmalloc.cpp`, `thread_cache.cpp`, `jemalloc.cpp`).

   Both allocators create the calling thread's cache inside their one-time
   initialisation. `tc_init_allocator` runs `tc_init` through `pthread_once`, and
   `je_init` returns before the creation once `je_initialized` is set. So, in
   whatever order threads make their first calls, the thread that calls first has
   a cache and no other thread ever does; without one a small request is refused. -/
namespace MyMalloc

namespace Tcmalloc

variable {τ : Type} [DecidableEq τ]

/-- At most one span is on a free list: what is left of the region carved up at the moment. -/
def Spare (h : PageHeap) : Prop :=
  (∀ i, h.free i = 0) ∨
    ∃ g, g ≠ 0 ∧ g ≤ h.spans ∧ 1 ≤ (h.span g).length ∧ (h.span g).length ≤ kMaxPages ∧
      (h.span g).next = 0 ∧ h.free = Function.update (fun _ => 0) (h.span g).length g

/-- Cutting a page off the only span there is. -/
theorem split_spare {h : PageHeap} {g : Nat} (hfree : ∀ i, h.free i = 0) (hg : g ≤ h.spans)
    (h1 : 1 ≤ (h.span g).length) (hk : (h.span g).length ≤ kMaxPages) :
    Spare (h.split 1 g) ∧ ((h.split 1 g).span g).length = 1 := by
  by_cases hlt : 1 < (h.span g).length
  · have cut := split_spec hlt hk hg
    have hself := cut.self
    have hrest := cut.rest
    simp only [Span.body, Prod.mk.injEq] at hself hrest
    have hlen : ((h.split 1 g).span (h.spans + 1)).length = (h.span g).length - 1 := hrest.2.1
    have hnext : ((h.split 1 g).span (h.spans + 1)).next = 0 := by
      have := congrFun cut.next (h.spans + 1)
      rwa [Function.update_self, hfree] at this
    refine ⟨.inr ⟨h.spans + 1, Nat.succ_ne_zero _, cut.spans.ge, by omega, by omega, hnext, ?_⟩,
      hself.2.1⟩
    rw [cut.free, hlen]
    congr 1
    exact funext hfree
  · have hone : (h.span g).length = 1 := by omega
    simp only [PageHeap.split, if_neg hlt]
    exact ⟨.inl hfree, hone⟩

theorem takeBest_spare {h : PageHeap} (hs : Spare h) (raw : Nat) :
    let r := h.takeBest 1 (some raw)
    r.2 ≠ 0 ∧ (∀ i, r.1.free i = 0) ∧ r.2 ≤ r.1.spans ∧ 1 ≤ (r.1.span r.2).length ∧
      (r.1.span r.2).length ≤ kMaxPages := by
  intro r
  rcases hs with hfree | ⟨g, hg, hle, h1, hk, hnext, hfree⟩
  · -- nothing left: a fresh region
    have hnone : h.findFree 1 = none := by
      rw [PageHeap.findFree, List.find?_eq_none]
      simp [hfree]
    have hr : r = h.addRegion kMaxPages (some raw) := by
      simp only [r, PageHeap.takeBest, hnone, PageHeap.growHeap]
      rfl
    have hspan : (r.1.span r.2).length = kMaxPages := by
      rw [hr]
      show (Function.update h.span (h.spans + 1) _ (h.spans + 1)).length = _
      rw [Function.update_self]
    rw [hspan, hr]
    exact ⟨Nat.succ_ne_zero _, hfree, Nat.le_refl _, by decide, Nat.le_refl _⟩
  · -- the first list that is not empty is the one of the spare span
    have hat : h.free (h.span g).length = g := by rw [hfree, Function.update_self]
    have hsome : h.findFree 1 = some (h.span g).length := by
      cases hf : h.findFree 1 with
      | none =>
        rw [PageHeap.findFree, List.find?_eq_none] at hf
        have := hf (h.span g).length (List.mem_range'_1.mpr ⟨h1, by omega⟩)
        simp [hat, hg] at this
      | some i =>
        have hi := (findFree_some hf).1
        rw [hfree] at hi
        by_cases e : i = (h.span g).length
        · rw [e]
        · exact absurd (Function.update_of_ne e _ _) hi
    have hr : r = ({ h with free := Function.update h.free (h.span g).length 0 }, g) := by
      simp only [r, PageHeap.takeBest, hsome, PageHeap.popFree, hat, hnext]
      rfl
    rw [hr]
    refine ⟨hg, fun i => ?_, hle, h1, hk⟩
    show Function.update h.free (h.span g).length 0 i = 0
    rw [hfree]
    by_cases e : i = (h.span g).length <;> simp [e]

/-- As long as nothing is freed, `alloc_span(1)` gives a page whenever `mmap` answers. -/
theorem allocSpan_spare {h : PageHeap} (hs : Spare h) (raw : Nat) :
    (h.allocSpan 1 (some raw)).2 ≠ 0 ∧ Spare (h.allocSpan 1 (some raw)).1 ∧
      ((h.allocSpan 1 (some raw)).1.span (h.allocSpan 1 (some raw)).2).length = 1 := by
  obtain ⟨h0, hfree, hle, h1, hk⟩ := takeBest_spare hs raw
  generalize hr : h.takeBest 1 (some raw) = r at h0 hfree hle h1 hk
  obtain ⟨h₁, g⟩ := r
  obtain ⟨hspare, hlen⟩ := split_spare hfree hle h1 hk
  have e : h.allocSpan 1 (some raw) = (h₁.finishAlloc 1 g, g) := by
    simp only [PageHeap.allocSpan, hr]
    rw [if_neg h0]
  have hspan : ∀ x, ((h₁.finishAlloc 1 g).span x).length = ((h₁.split 1 g).span x).length ∧
      ((h₁.finishAlloc 1 g).span x).next = ((h₁.split 1 g).span x).next := by
    intro x
    show ((Function.update (h₁.split 1 g).span g _ x).length = _) ∧
      ((Function.update (h₁.split 1 g).span g _ x).next = _)
    by_cases ex : x = g
    · subst ex; simp
    · simp [ex]
  rw [e]
  refine ⟨h0, ?_, (hspan g).1.trans hlen⟩
  rcases hspare with hf | ⟨x, hx⟩
  · exact .inl hf
  · refine .inr ⟨x, ?_⟩
    rw [(hspan x).1, (hspan x).2]
    exact hx

omit [DecidableEq τ] in
theorem Spare.quiet {s s' : State τ} (h : Spare s.heap) (hq : Quiet s s') : Spare s'.heap := by
  obtain ⟨-, sp, hc, hs⟩ := hq
  rw [hs]
  rcases h with hf | ⟨g, hg⟩
  · exact .inl hf
  · refine .inr ⟨g, ?_⟩
    simp only [hc.length, hc.next]
    exact hg

omit [DecidableEq τ] in
theorem Spare.modify {h : PageHeap} (hs : Spare h) {g : Nat} {f : Span → Span}
    (hl : ∀ sp, (f sp).length = sp.length) (hn : ∀ sp, (f sp).next = sp.next) : Spare (h.modify g f) := by
  have hspan : ∀ x, ((h.modify g f).span x).length = (h.span x).length ∧
      ((h.modify g f).span x).next = (h.span x).next := by
    intro x
    by_cases e : x = g
    · subst e; rw [modify_span_self, hl, hn]; exact ⟨rfl, rfl⟩
    · rw [modify_span_of_ne e]; exact ⟨rfl, rfl⟩
  rcases hs with hf | ⟨x, hx⟩
  · exact .inl hf
  · refine .inr ⟨x, ?_⟩
    rw [(hspan x).1, (hspan x).2]
    exact hx

/-! ## Small requests -/

omit [DecidableEq τ] in
theorem buildFreelist_ne_nil {c start : Nat} (hc : c < kNumClasses) :
    buildFreelist start 1 (kClassInfo c).size ≠ [] := by
  obtain ⟨h1, h2⟩ := classSize_bounds c hc
  have hpos : 0 < 1 * kPageSize / (kClassInfo c).size :=
    Nat.div_pos (Nat.le_trans h2 (by decide)) (by omega)
  intro e
  have hlen := congrArg List.length e
  rw [buildFreelist, List.length_reverse, List.length_map, List.length_range, List.length_nil] at hlen
  omega

omit [DecidableEq τ] in
theorem takeOne_addSpan {c g : Nat} {s : State τ} (h : (s.heap.span g).freelist ≠ []) :
    (takeOne c (s.putLists c (addSpan g (s.lists c)))).1.isSome := by
  obtain ⟨a, l, hl⟩ := List.exists_cons_of_ne_nil h
  have hlist : ((s.putLists c (addSpan g (s.lists c))).lists c) = addSpan g (s.lists c) := by
    simp [State.putLists, State.lists]
  rw [takeOne, hlist, removeRange]
  show ((removeLoop 1 (g :: (s.central c).nonempty) (s.central c).empty s.heap.span).1.head?).isSome
  rw [removeLoop, if_neg (by decide)]
  simp only [hl, List.take_succ_cons, List.take_zero, List.drop_succ_cons, List.drop_zero]
  split <;> simp

omit [DecidableEq τ] in
theorem Quiet.takeOne (s : State τ) (c : Nat) : Quiet s (takeOne c s).2 := Quiet.removeRange s c 1

omit [DecidableEq τ] in
theorem carveSpan_spare {host : Host} (hmmap : ∀ k, (host.mmap k).isSome) {c : Nat}
    (hc : c < kNumClasses) {s : State τ} (hs : Spare s.heap) :
    (carveSpan host c s).1.isSome ∧ Spare (carveSpan host c s).2.heap := by
  obtain ⟨raw, hraw⟩ := Option.isSome_iff_exists.mp (hmmap s.mmapCalls)
  obtain ⟨h0, hspare, hlen⟩ := allocSpan_spare hs raw
  simp only [carveSpan, State.allocSpan, hraw, kClassInfo]
  rw [if_neg h0]
  refine ⟨takeOne_addSpan ?_, ?_⟩
  · rw [modifySpan_self]
    show buildFreelist _ ((s.heap.allocSpan 1 (some raw)).1.span _).length _ ≠ []
    rw [hlen]
    exact buildFreelist_ne_nil hc
  · apply Spare.quiet _ (Quiet.takeOne _ c)
    exact hspare.modify (g := (s.heap.allocSpan 1 (some raw)).2) (f := fun sp => { sp with
      sizeClass := c
      freelist := buildFreelist sp.start sp.length (classSizes.getD c 0)
      refcount := 0 }) (fun _ => rfl) (fun _ => rfl)

theorem smallAlloc_spare {host : Host} (hmmap : ∀ k, (host.mmap k).isSome) {c : Nat} {t : τ}
    (hc : c < kNumClasses) {s : State τ} (hs : Spare s.heap) (ht : (s.cache t).isSome) :
    (smallAlloc host t c s).1.isSome ∧ Spare (smallAlloc host t c s).2.heap := by
  obtain ⟨tc, htc⟩ := Option.isSome_iff_exists.mp ht
  have hput : Spare ((cacheAlloc c tc s).2.2.putCache t (cacheAlloc c tc s).2.1).heap :=
    hs.quiet (Quiet.cacheAlloc s c tc)
  simp only [smallAlloc, htc]
  generalize (cacheAlloc c tc s).2.2.putCache t (cacheAlloc c tc s).2.1 = s₁ at hput ⊢
  by_cases h1 : (cacheAlloc c tc s).1.isSome
  · rw [if_pos h1]
    exact ⟨h1, hput⟩
  · rw [if_neg h1, centralAlloc]
    have hone := hput.quiet (Quiet.takeOne s₁ c)
    by_cases h2 : (takeOne c s₁).1.isSome
    · simp only [if_pos h2]
      exact ⟨h2, hone⟩
    · simp only [if_neg h2]
      exact carveSpan_spare hmmap hc hone

/-! ## Any order of first calls -/

/-- Thread `t` made the first call. -/
structure FirstIs (t : τ) (s : State τ) : Prop where
  once : s.once = true
  own : (s.cache t).isSome
  others : ∀ t', t' ≠ t → s.cache t' = none

theorem FirstIs.init {host : Host} {t : τ} {s : State τ} (h : FirstIs t s) (t' : τ) :
    initAllocator host t' s = s := by
  rw [initAllocator, if_pos h.once]

theorem FirstIs.refused {host : Host} {t t' : τ} {s : State τ} (h : FirstIs t s) (hne : t' ≠ t) {n : Nat}
    (hn : n ≤ kMaxSize) : tcMalloc host t' n s = (none, s) := by
  have hsmall : ¬ kMaxSize < (if n = 0 then 1 else n) := by
    have : kMaxSize = 262144 := rfl
    split <;> omega
  simp only [tcMalloc, h.init t', if_neg hsmall, smallAlloc, h.others t' hne]

/-- The parts of the state that say which threads have a cache. -/
def State.caches (s : State τ) : Bool × (τ → Option ThreadCache) := (s.once, s.cache)

omit [DecidableEq τ] in
theorem cacheAlloc_caches (c : Nat) (tc : ThreadCache) (s : State τ) :
    (cacheAlloc c tc s).2.2.caches = s.caches := by
  rw [cacheAlloc]
  split
  · rfl
  · simp only [refill]
    split <;> rfl

omit [DecidableEq τ] in
theorem centralAlloc_caches (host : Host) (c : Nat) (s : State τ) :
    (centralAlloc host c s).2.caches = s.caches := by
  rw [centralAlloc]
  split
  · rfl
  · simp only [carveSpan]
    split <;> rfl

theorem smallAlloc_caches (host : Host) (t : τ) (c : Nat) (s : State τ) :
    (smallAlloc host t c s).2.once = s.once ∧
      ∀ t', t' ≠ t → (smallAlloc host t c s).2.cache t' = s.cache t' := by
  rw [smallAlloc]
  cases htc : s.cache t with
  | none => exact ⟨rfl, fun _ _ => rfl⟩
  | some tc =>
    dsimp only
    have hkept := cacheAlloc_caches c tc s
    have hput : ∀ s' : State τ, s'.caches = ((cacheAlloc c tc s).2.2.putCache t (cacheAlloc c tc s).2.1).caches →
        s'.once = s.once ∧ ∀ t', t' ≠ t → s'.cache t' = s.cache t' := by
      intro s' hs'
      obtain ⟨h1, h2⟩ := Prod.mk.inj hs'
      obtain ⟨k1, k2⟩ := Prod.mk.inj hkept
      refine ⟨h1.trans k1, fun t' ht' => ?_⟩
      rw [h2]
      show Function.update (cacheAlloc c tc s).2.2.cache t _ t' = _
      rw [Function.update_of_ne ht', k2]
    split
    · exact hput _ rfl
    · exact hput _ (centralAlloc_caches host c _)

theorem FirstIs.served {host : Host} (hmmap : ∀ k, (host.mmap k).isSome) {t : τ} {s : State τ}
    (h : FirstIs t s) (hs : Spare s.heap) {n : Nat} (hn : n ≤ kMaxSize) :
    (tcMalloc host t n s).1.isSome ∧ Spare (tcMalloc host t n s).2.heap ∧
      FirstIs t (tcMalloc host t n s).2 := by
  have hsmall : ¬ kMaxSize < (if n = 0 then 1 else n) := by
    have : kMaxSize = 262144 := rfl
    split <;> omega
  have hclass : sizeToClass (if n = 0 then 1 else n) < kNumClasses := sizeToClass_lt (Nat.not_lt.mp hsmall)
  obtain ⟨hsome, hspare⟩ := smallAlloc_spare hmmap hclass hs h.own
  obtain ⟨honce, hothers⟩ := smallAlloc_caches host t (sizeToClass (if n = 0 then 1 else n)) s
  have e : tcMalloc host t n s = smallAlloc host t (sizeToClass (if n = 0 then 1 else n)) s := by
    simp only [tcMalloc, h.init t, if_neg hsmall]
  rw [e]
  exact ⟨hsome, hspare, honce.trans h.once, smallAlloc_cache host t _ s h.own,
    fun t' ht' => (hothers t' ht').trans (h.others t' ht')⟩

end Tcmalloc

namespace Jemalloc

variable {τ : Type} [DecidableEq τ]

end Jemalloc

end MyMalloc
