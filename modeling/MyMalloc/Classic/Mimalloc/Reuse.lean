import MyMalloc.Classic.Mimalloc.LinkedHeap

/- When the mimalloc-like allocator maps a new segment.

   For every size class the heap remembers one page. A page that becomes full is
   forgotten, and nothing ever makes the heap remember a page again: `mi_free` puts a
   block on the list of its page, whether the heap remembers that page or not. A block
   that goes back to a forgotten page is lost to `mi_malloc`. So when a segment is
   mapped for a class, all blocks of the thread's pages of that class are live exactly
   if no block of the class has gone back to a forgotten page before
   (`reuse_before_growth_iff`). -/
namespace MyMalloc.Mimalloc

variable {τ : Type}

/-! ## Runs of one thread -/

/-- The page that the thread's heap remembers for a class. -/
def State.direct (s : State τ) (t : τ) (c : Nat) : Nat := ((s.heap t).map (·.pageDirect c)).getD 0

/-- The class of a block whose page is not the one remembered for it. -/
def strayClass (s : State τ) (t : τ) (p : Nat) : List Nat :=
  match s.page (segmentOf p) with
  | none => []
  | some pg =>
    if s.direct t (miClassIndex pg.blockSize) = segmentOf p then [] else [miClassIndex pg.blockSize]

/-- The states of a thread that calls `mi_malloc` and `mi_free`, with the blocks held and the
classes in which a block was freed to a page the heap does not remember. -/
inductive ThreadRun [DecidableEq τ] (host : Host) (t : τ) : State τ → List Nat → List Nat → Prop where
  | start : ThreadRun host t (State.start τ) [] []
  | malloc {s s' : State τ} {held strays : List Nat} {r : Option Nat} (h : ThreadRun host t s held strays) (n : Nat)
      (exec : miMalloc host t n s = some (r, s')) : ThreadRun host t s' (r.toList ++ held) strays
  | free {s s' : State τ} {held strays : List Nat} (h : ThreadRun host t s held strays) (user : Nat → Nat) (p : Nat)
      (hp : p ∈ held) (exec : miFree user t p s = some s') :
      ThreadRun host t s' (held.filter (· ≠ p)) (strayClass s t p ++ strays)

/-- The call has mapped a new segment. -/
def Grows (s s' : State τ) : Prop := ∃ seg, s.page seg = none ∧ (s'.page seg).isSome

/-- No page of the thread's heap for the class has a free block, and all its blocks are held. -/
def AllLive (s : State τ) (t : τ) (held : List Nat) (c : Nat) : Prop :=
  ∀ seg pg, s.page seg = some pg → (s.heap t).map (·.id) = some pg.heapTag → pg.blockSize = miClassSize c →
    pg.localFree = [] ∧ ∀ p, IsBlock seg pg p → p ∈ held

/-! ## Classes -/

theorem miClassSize_inj {c c' : Nat} (hc : c < classCountSmall) (h : miClassSize c = miClassSize c') : c = c' := by
  by_cases hc' : c' < classCountSmall
  · rw [miClassSize_small hc, miClassSize_small hc'] at h
    omega
  · -- the other classes are beyond 8192 bytes
    have hcount : classCountSmall = 256 := rfl
    have hbig : miClassSize c' = 8192 + (c' - 256 + 1) * 128 := if_neg hc'
    rw [miClassSize_small hc, hbig] at h
    omega

theorem miClassIndex_miClassSize {c : Nat} (hc : c < classCountSmall) : miClassIndex (miClassSize c) = c := by
  have hcount : classCountSmall = 256 := rfl
  have hstep : classStepSmall = 16 := rfl
  have hmax : maxSmallSize = 8192 := rfl
  have hne : ¬ (c + 1) * 16 = 0 := by omega
  rw [miClassSize_small hc, miClassIndex]
  dsimp only
  rw [if_neg hne, if_pos (by omega), hstep, if_pos (by omega)]
  omega

/-! ## The invariant -/

/-- A large block behind its size word, wherever its mapping begins. -/
structure LargeAt (s : State τ) (p raw actual : Nat) : Prop where
  eq : p = raw + 8
  word : s.word raw = some actual
  region : ⟨raw, (mapSize (addS actual 8).val).val⟩ ∈ s.regions
  long : 8 < (mapSize (addS actual 8).val).val
  dvd : osPageSize ∣ raw
  page : s.page raw = none

def Large (s : State τ) (p : Nat) : Prop := ∃ raw actual, LargeAt s p raw actual

/-- The pages of one thread: each counts its blocks, of which those that are not free are in
`small`; those the heap does not remember have no free block, except after a stray free. -/
structure Pages (s : State τ) (t : τ) (small strays : List Nat) : Prop where
  own : ∀ {seg pg}, s.page seg = some pg → (s.heap t).map (·.id) = some pg.heapTag
  count : ∀ {seg pg}, s.page seg = some pg → pg.used + pg.localFree.length = pg.capacity ∧ pg.capacity < 2^32
  sized : ∀ {seg pg}, s.page seg = some pg → ∃ c < classCountSmall, pg.blockSize = miClassSize c
  blocks : ∀ {seg pg p}, s.page seg = some pg → IsBlock seg pg p → p ∈ pg.localFree ∨ p ∈ small
  inPage : ∀ {p}, p ∈ small → ∃ seg pg, s.page seg = some pg ∧ IsBlock seg pg p
  idle : ∀ {seg pg c}, s.page seg = some pg → pg.blockSize = miClassSize c → seg ≠ s.direct t c → c ∉ strays →
    pg.localFree = []
  lost : ∀ {c}, c ∈ strays → ∃ seg pg, s.page seg = some pg ∧ pg.blockSize = miClassSize c ∧ seg ≠ s.direct t c ∧
    pg.localFree ≠ []

structure Kept (s : State τ) (t : τ) (small held strays : List Nat) : Prop where
  inv : Inv s small
  pages : Pages s t small strays
  sub : ∀ p ∈ small, p ∈ held
  split : ∀ p ∈ held, p ∈ small ∨ Large s p

theorem Kept.start (t : τ) : Kept (State.start τ) t [] [] [] :=
  ⟨inv_start, ⟨nofun, nofun, nofun, nofun, nofun, nofun, nofun⟩, nofun, nofun⟩

variable {s s' : State τ} {t : τ} {small held strays : List Nat} {seg c p : Nat} {pg pg' : Page}

theorem Inv.segment_ne_zero (inv : Inv s held) (hpg : s.page seg = some pg) : seg ≠ 0 :=
  (inv.bound _ (inv.segment seg pg hpg).1).2.1

theorem Large.mono (h : Large s p) (hreg : ∀ r ∈ s.regions, r ∈ s'.regions)
    (hnone : ∀ r ∈ s.regions, s.page r.base = none → s'.page r.base = none)
    (hword : ∀ r ∈ s.regions, ∀ w, s.word r.base = some w → s'.word r.base = some w) : Large s' p := by
  obtain ⟨raw, actual, h⟩ := h
  exact ⟨raw, actual, h.eq, hword _ h.region _ h.word, hreg _ h.region, h.long, h.dvd, hnone _ h.region h.page⟩

theorem heap_of_id {tag : Nat} (h : (s.heap t).map (·.id) = some tag) : (s.heap t).isSome := by
  cases hh : s.heap t with
  | none => rw [hh] at h; cases h
  | some _ => rfl

theorem Pages.congr (h : Pages s t small strays) (hpage : s'.page = s.page)
    (hid : (s.heap t).isSome → (s'.heap t).map (·.id) = (s.heap t).map (·.id))
    (hdirect : ∀ c, s'.direct t c = s.direct t c) : Pages s' t small strays := by
  obtain ⟨own, count, sized, blocks, inPage, idle, lost⟩ := h
  rw [← hpage] at own count sized blocks inPage idle lost
  refine ⟨fun hpg => ?_, count, sized, blocks, inPage, fun hpg hsize hne => ?_, fun hc => ?_⟩
  · rw [hid (heap_of_id (own hpg))]
    exact own hpg
  · rw [hdirect] at hne
    exact idle hpg hsize hne
  · rw [hdirect]
    exact lost hc

theorem Kept.congr (h : Kept s t small held strays) (inv : Inv s' small) (hpage : s'.page = s.page)
    (hid : (s.heap t).isSome → (s'.heap t).map (·.id) = (s.heap t).map (·.id))
    (hdirect : ∀ c, s'.direct t c = s.direct t c) (hreg : s'.regions = s.regions) (hword : s'.word = s.word) :
    Kept s' t small held strays := by
  refine ⟨inv, h.pages.congr hpage hid hdirect, h.sub, fun p hp => (h.split p hp).imp_right fun hl => ?_⟩
  exact hl.mono (fun r hr => by rwa [hreg]) (fun r _ hn => by rwa [hpage]) (fun r _ w hw => by rwa [hword])

theorem Kept.refused (h : Kept s t small held strays) :
    Kept { s with mmapCalls := s.mmapCalls + 1 } t small held strays :=
  h.congr h.inv.refused rfl (fun _ => rfl) (fun _ => rfl) rfl rfl

/-! ## Heaps -/

section heaps
variable [DecidableEq τ] {host : Host}

theorem direct_threadInit (host : Host) (t : τ) (s : State τ) (c : Nat) :
    (threadInit host t s).direct t c = s.direct t c := by
  unfold threadInit
  split
  · rfl
  · rename_i hnone
    split
    · -- a new heap remembers nothing
      rw [State.direct, State.direct, Option.not_isSome_iff_eq_none.mp hnone]
      dsimp only
      rw [Function.update_self]
      rfl
    · rfl

theorem Kept.threadInit (h : Kept s t small held strays) (host : Host) :
    Kept (threadInit host t s) t small held strays := by
  obtain ⟨hreg, hpage, hword⟩ := threadInit_frame host t s
  exact h.congr (h.inv.threadInit host t) hpage (fun hsome => by rw [Mimalloc.threadInit, if_pos hsome])
    (direct_threadInit host t s) hreg hword

theorem Kept.miInit (h : Kept s t small held strays) (host : Host) : Kept (miInit host t s) t small held strays := by
  unfold Mimalloc.miInit
  split
  · exact h
  · have h1 : Kept { s with initOnce := true } t small held strays :=
      h.congr (h.inv.setHeap h.inv.direct) rfl (fun _ => rfl) (fun _ => rfl) rfl rfl
    exact h1.threadInit host

theorem direct_setDirect_self (hh : (s.heap t).isSome) (c seg : Nat) : (setDirect t c seg s).direct t c = seg := by
  obtain ⟨h, hh⟩ := Option.isSome_iff_exists.mp hh
  simp [State.direct, setDirect, hh]

theorem direct_setDirect_of_ne {c c' : Nat} (hne : c' ≠ c) (seg : Nat) :
    (setDirect t c seg s).direct t c' = s.direct t c' := by
  cases hh : s.heap t <;> simp [State.direct, setDirect, hh, hne]

theorem setDirect_id (c seg : Nat) : ((setDirect t c seg s).heap t).map (·.id) = (s.heap t).map (·.id) := by
  cases hh : s.heap t <;> simp [setDirect, hh]

end heaps

/-! ## One page changes -/

/-- A page of a state in which only the page of `seg` was written. -/
theorem page_cases {a : Nat} {q : Page} (hpage : s'.page = Function.update s.page seg (some pg'))
    (h : s'.page a = some q) : a = seg ∧ q = pg' ∨ a ≠ seg ∧ s.page a = some q := by
  rw [hpage] at h
  rcases eq_or_ne a seg with rfl | hne
  · rw [Function.update_self] at h
    exact .inl ⟨rfl, (Option.some.inj h).symm⟩
  · rw [Function.update_of_ne hne] at h
    exact .inr ⟨hne, h⟩

theorem page_self (hpage : s'.page = Function.update s.page seg (some pg')) : s'.page seg = some pg' := by
  rw [hpage, Function.update_self]

theorem page_of_ne {a : Nat} (hpage : s'.page = Function.update s.page seg (some pg')) (hne : a ≠ seg) :
    s'.page a = s.page a := by
  rw [hpage, Function.update_of_ne hne]

theorem isBlock_update (hpage : s'.page = Function.update s.page seg (some pg')) (hpg : s.page seg = some pg)
    (hsize : pg'.blockSize = pg.blockSize) (hcap : pg'.capacity = pg.capacity)
    (h : ∃ a q, s.page a = some q ∧ IsBlock a q p) : ∃ a q, s'.page a = some q ∧ IsBlock a q p := by
  obtain ⟨a, q, hq, hb⟩ := h
  rcases eq_or_ne a seg with rfl | hne
  · obtain rfl := Option.some.inj (hpg.symm.trans hq)
    exact ⟨a, pg', page_self hpage, hb.congr hsize hcap⟩
  · exact ⟨a, q, (page_of_ne hpage hne).trans hq, hb⟩

theorem Inv.isBlock_unique (inv : Inv s held) {a : Nat} {q : Page} (hpg : s.page seg = some pg) (hq : s.page a = some q)
    (hp : IsBlock seg pg p) (hp' : IsBlock a q p) : a = seg := by
  have e := inv.region_eq (inv.segment a q hq).1 (inv.segment seg pg hpg).1 (inv.segment_has hq hp')
    (inv.segment_has hpg hp)
  exact congrArg Region.base e

/-- The page remembered for a class gives its first block, and is forgotten at most when it has no other. -/
theorem Pages.pop (h : Pages s t small strays) (inv : Inv s small) {b : Nat} {rest : List Nat}
    (hpg : s.page seg = some pg) (hl : pg.localFree = b :: rest) (hc : c < classCountSmall)
    (hsize : pg.blockSize = miClassSize c) (hdirect : s.direct t c = seg)
    (hpage : s'.page = Function.update s.page seg
      (some { pg with localFree := rest, used := (pg.used + 1) % 2^32 }))
    (hid : (s'.heap t).map (·.id) = (s.heap t).map (·.id))
    (hother : ∀ c', c' ≠ c → s'.direct t c' = s.direct t c')
    (hself : s'.direct t c = seg ∨ s'.direct t c = 0 ∧ rest = []) : Pages s' t (b :: small) strays where
  own := by
    intro a q hq
    rw [hid]
    obtain ⟨-, rfl⟩ | ⟨-, hq⟩ := page_cases hpage hq
    · have := h.own hpg
      exact this
    · exact h.own hq
  count := by
    intro a q hq
    obtain ⟨-, rfl⟩ | ⟨-, hq⟩ := page_cases hpage hq
    · obtain ⟨hcount, hcap⟩ := h.count hpg
      rw [hl, List.length_cons] at hcount
      dsimp only
      omega
    · exact h.count hq
  sized := by
    intro a q hq
    obtain ⟨-, rfl⟩ | ⟨-, hq⟩ := page_cases hpage hq
    · have := h.sized hpg
      exact this
    · exact h.sized hq
  blocks := by
    intro a q x hq hx
    obtain ⟨rfl, rfl⟩ | ⟨-, hq⟩ := page_cases hpage hq
    · have hold : IsBlock a pg x := hx.congr rfl rfl
      have hfree := h.blocks hpg hold
      rw [hl, List.mem_cons] at hfree
      rw [List.mem_cons]
      tauto
    · exact (h.blocks hq hx).imp_right (List.mem_cons_of_mem _)
  inPage := by
    intro x hx
    refine isBlock_update hpage hpg rfl rfl ?_
    rcases List.mem_cons.mp hx with rfl | hx
    · exact ⟨seg, pg, hpg, (inv.segment seg pg hpg).2.2.blocks x (hl ▸ List.mem_cons_self)⟩
    · exact h.inPage hx
  idle := by
    intro a q c' hq hq' hne hc'
    obtain ⟨rfl, rfl⟩ | ⟨ha, hq⟩ := page_cases hpage hq
    · -- the page itself, if it is forgotten now
      obtain rfl := miClassSize_inj hc (hsize.symm.trans hq')
      exact (hself.resolve_left hne.symm).2
    · refine h.idle hq hq' ?_ hc'
      rcases eq_or_ne c' c with rfl | hcc
      · rw [hdirect]
        exact ha
      · rw [← hother c' hcc]
        exact hne
  lost := by
    intro c' hc'
    obtain ⟨a, q, hq, hq', hne, hfree⟩ := h.lost hc'
    have ha : a ≠ seg := by
      rintro rfl
      obtain rfl := Option.some.inj (hpg.symm.trans hq)
      obtain rfl := miClassSize_inj hc (hsize.symm.trans hq')
      exact hne hdirect.symm
    refine ⟨a, q, (page_of_ne hpage ha).trans hq, hq', ?_, hfree⟩
    rcases eq_or_ne c' c with rfl | hcc
    · rcases hself with e | ⟨e, -⟩ <;> rw [e]
      · exact ha
      · exact inv.segment_ne_zero hq
    · rw [hother c' hcc]
      exact hne

section alloc
variable [DecidableEq τ] {host : Host} {r : Option Nat}

theorem Kept.popBlock (h : Kept s t small held strays) (hpg : s.page seg = some pg) (hc : c < classCountSmall)
    (hsize : pg.blockSize = miClassSize c) (hdirect : s.direct t c = seg)
    (hpop : popBlock t c seg s = some (r, s')) :
    ∃ b, r = some b ∧ Kept s' t (b :: small) (b :: held) strays ∧ ∀ a, s.page a = none → s'.page a = none := by
  cases hl : pg.localFree with
  | nil => simp [Mimalloc.popBlock, hpg, hl] at hpop
  | cons b rest =>
    obtain ⟨res, s₁, hr, hext, inv1, -⟩ := h.inv.popBlock t hpg hsize (by rw [hl]; exact List.cons_ne_nil _ _)
    obtain ⟨rfl, rfl⟩ := Prod.mk.inj (Option.some.inj (hr.symm.trans hpop))
    have hheap := heap_of_id (h.pages.own hpg)
    simp only [Mimalloc.popBlock, hpg, hl] at hpop
    obtain ⟨rfl, hs⟩ := Prod.mk.inj (Option.some.inj hpop)
    have hpage : s₁.page = Function.update s.page seg
        (some { pg with localFree := rest, used := (pg.used + 1) % 2^32 }) := by
      rw [← hs]
      split <;> rfl
    refine ⟨b, rfl, ⟨inv1, ?_, ?_, ?_⟩, ?_⟩
    · refine h.pages.pop h.inv hpg hl hc hsize hdirect hpage ?_ ?_ ?_
      · rw [← hs]
        split
        · exact setDirect_id ..
        · rfl
      · intro c' hcc
        rw [← hs]
        split
        · exact direct_setDirect_of_ne hcc _
        · rfl
      · rw [← hs]
        split
        · rename_i hfull
          -- the page is full: no block is left
          have hcount := h.pages.count hpg
          rw [hl, List.length_cons] at hcount
          exact .inr ⟨direct_setDirect_self hheap .., List.length_eq_zero_iff.mp (by omega)⟩
        · exact .inl hdirect
    · exact fun q hq => (List.mem_cons.mp hq).elim (fun e => e ▸ List.mem_cons_self)
        fun hq => List.mem_cons_of_mem _ (h.sub q hq)
    · intro q hq
      rcases List.mem_cons.mp hq with rfl | hq
      · exact .inl List.mem_cons_self
      · refine (h.split q hq).imp (List.mem_cons_of_mem _) fun hlarge => hlarge.mono hext.regions ?_ ?_
        · intro r' _ hnone
          have hne : r'.base ≠ seg := fun e => by rw [e, hpg] at hnone; cases hnone
          exact (page_of_ne hpage hne).trans hnone
        · intro r' _ w hw
          rw [← hs]
          split <;> exact hw
    · intro a ha
      have hne : a ≠ seg := fun e => by rw [e, hpg] at ha; cases ha
      exact (page_of_ne hpage hne).trans ha

/-- A new page takes the place of one without free blocks. -/
theorem Pages.grow (h : Pages s t small strays) (inv : Inv s small) {tag : Nat} (hnone : s.page seg = none) (hc : c < classCountSmall)
    (hold : s.direct t c = 0 ∨ s.freeBlocks (s.direct t c) = [])
    (htag : (s.heap t).map (·.id) = some tag) :
    Pages (setDirect t c seg (s.addSegment seg (freshPage seg (miClassSize c) tag))) t small strays := by
  have hheap := heap_of_id htag
  have hpage : (setDirect t c seg (s.addSegment seg (freshPage seg (miClassSize c) tag))).page =
      Function.update s.page seg (some (freshPage seg (miClassSize c) tag)) := rfl
  have hself : (setDirect t c seg (s.addSegment seg (freshPage seg (miClassSize c) tag))).direct t c = seg :=
    direct_setDirect_self hheap ..
  have hother : ∀ c', c' ≠ c →
      (setDirect t c seg (s.addSegment seg (freshPage seg (miClassSize c) tag))).direct t c' = s.direct t c' :=
    fun c' hcc => direct_setDirect_of_ne hcc _
  constructor
  · intro a q hq
    rw [setDirect_id]
    obtain ⟨-, rfl⟩ | ⟨-, hq⟩ := page_cases hpage hq
    · exact htag
    · exact h.own hq
  · intro a q hq
    obtain ⟨-, rfl⟩ | ⟨-, hq⟩ := page_cases hpage hq
    · simp only [freshPage, List.length_map, List.length_reverse, List.length_range]
      omega
    · exact h.count hq
  · intro a q hq
    obtain ⟨-, rfl⟩ | ⟨-, hq⟩ := page_cases hpage hq
    · exact ⟨c, hc, rfl⟩
    · exact h.sized hq
  · intro a q x hq hx
    obtain ⟨rfl, rfl⟩ | ⟨-, hq⟩ := page_cases hpage hq
    · obtain ⟨i, hi, rfl⟩ := hx
      exact .inl (List.mem_map.mpr ⟨i, List.mem_reverse.mpr (List.mem_range.mpr hi), rfl⟩)
    · exact h.blocks hq hx
  · intro x hx
    obtain ⟨a, q, hq, hb⟩ := h.inPage hx
    have ha : a ≠ seg := fun e => by rw [e, hnone] at hq; cases hq
    exact ⟨a, q, (page_of_ne hpage ha).trans hq, hb⟩
  · intro a q c' hq hq' hne hc'
    obtain ⟨rfl, rfl⟩ | ⟨ha, hqa⟩ := page_cases hpage hq
    · obtain rfl := miClassSize_inj hc hq'
      exact absurd hself.symm hne
    · rcases eq_or_ne c' c with rfl | hcc
      · -- the page that was remembered has no free block either
        by_cases hd : a = s.direct t c'
        · have hfree := hold.resolve_left (hd ▸ inv.segment_ne_zero hqa)
          rw [← hd, State.freeBlocks, hqa] at hfree
          exact hfree
        · exact h.idle hqa hq' hd hc'
      · rw [hother c' hcc] at hne
        exact h.idle hqa hq' hne hc'
  · intro c' hc'
    obtain ⟨a, q, hq, hq', hne, hfree⟩ := h.lost hc'
    have ha : a ≠ seg := fun e => by rw [e, hnone] at hq; cases hq
    refine ⟨a, q, (page_of_ne hpage ha).trans hq, hq', ?_, hfree⟩
    rcases eq_or_ne c' c with rfl | hcc
    · rw [hself]
      exact ha
    · rw [hother c' hcc]
      exact hne

theorem Kept.growAndPop (h : Kept s t small held strays) {hp : Heap} (hh : s.heap t = some hp)
    (hc : c < classCountSmall) (hold : s.direct t c = 0 ∨ s.freeBlocks (s.direct t c) = [])
    (hgrow : growAndPop host t hp.id c s = some (r, s')) : ∃ small', Kept s' t small' (r.toList ++ held) strays := by
  unfold Mimalloc.growAndPop at hgrow
  rcases h.inv.miPageAlloc host t hp.id hc with ⟨-, hs⟩ | ⟨seg, hfresh, -, inv1, hs⟩
  · rw [hs] at hgrow
    obtain ⟨rfl, rfl⟩ := Prod.mk.inj (Option.some.inj hgrow)
    exact ⟨small, h.refused⟩
  · rw [hs] at hgrow
    have hnone : s.page seg = none := by
      cases hpg : s.page seg with
      | none => rfl
      | some pg => exact absurd rfl (h.inv.ne_of_apart hpg hfresh)
    have h1 : Kept (setDirect t c seg (s.addSegment seg (freshPage seg (miClassSize c) hp.id))) t small held strays := by
      refine ⟨inv1, h.pages.grow h.inv hnone hc hold (by rw [hh]; rfl), h.sub, fun p hp' => ?_⟩
      refine (h.split p hp').imp_right fun hl => hl.mono (fun _ hr => List.mem_cons_of_mem _ hr) ?_ fun _ _ _ hw => hw
      intro r' hr' hn
      have hne : r'.base ≠ seg := by
        intro e
        have hself : r'.Has r'.base := ⟨Nat.le_refl _, by have := (h.inv.bound r' hr').1; omega⟩
        exact (hfresh r' hr').not_has hself ⟨by dsimp only; omega, by simp [e, segmentSize]⟩
      exact (Function.update_of_ne hne ..).trans hn
    have hdirect : (setDirect t c seg (s.addSegment seg (freshPage seg (miClassSize c) hp.id))).direct t c = seg :=
      direct_setDirect_self (by rw [State.addSegment, State.putPage, hh]; rfl) ..
    obtain ⟨b, rfl, h2, -⟩ := h1.popBlock (addSegment_page ..) hc rfl hdirect hgrow
    exact ⟨_, h2⟩

/-- A block of a small class; the new segment, if there is one, is for want of a free block in the
page that is remembered. -/
theorem Kept.smallAlloc (h : Kept s t small held strays) (hc : c < classCountSmall)
    (hsmall : smallAlloc host t c s = some (r, s')) :
    (∃ small', Kept s' t small' (r.toList ++ held) strays) ∧
      (Grows s s' → s.direct t c = 0 ∨ s.freeBlocks (s.direct t c) = []) := by
  unfold Mimalloc.smallAlloc at hsmall
  cases hh : s.heap t with
  | none => rw [hh] at hsmall; cases hsmall
  | some hp =>
    have hdirect : s.direct t c = hp.pageDirect c := by rw [State.direct, hh]; rfl
    simp only [hh, ← hdirect] at hsmall
    split at hsmall
    · rename_i hold
      exact ⟨h.growAndPop hh hc hold hsmall, fun _ => hold⟩
    · rename_i hkeep
      split at hsmall
      · cases hsmall
      · rw [not_or, hdirect] at hkeep
        obtain ⟨pg, hpg, hsize⟩ := h.inv.direct t hp c hh hkeep.1
        rw [← hdirect] at hpg
        obtain ⟨b, rfl, h1, hnone⟩ := h.popBlock hpg hc hsize rfl hsmall
        refine ⟨⟨_, h1⟩, fun ⟨seg, hold, hnew⟩ => ?_⟩
        rw [hnone seg hold] at hnew
        cases hnew

theorem Kept.directAlloc (h : Kept s t small held strays) {actual : Nat} (h16 : 16 ∣ actual)
    (hd : directAlloc host t actual s = some (r, s')) :
    Kept s' t small (r.toList ++ held) strays ∧ s'.page = s.page := by
  unfold Mimalloc.directAlloc at hd
  rcases rawAlloc_cases host (addS actual 8).val s with hr | ⟨raw, -, hfits, hr⟩
  · rw [hr] at hd
    obtain ⟨rfl, rfl⟩ := Prod.mk.inj (Option.some.inj hd)
    exact ⟨h.refused, rfl⟩
  · rw [hr] at hd
    dsimp only at hd
    obtain ⟨hnil, hlone, inv1⟩ := h.inv.mapWord hfits (Nat.dvd_trans (by decide) h16)
    have hlong := mapSize_pos hfits.1
    have hbase : ∀ r' ∈ s.regions, r'.base ≠ raw := by
      intro r' hr' e
      have hself : r'.Has r'.base := ⟨Nat.le_refl _, by have := (h.inv.bound r' hr').1; omega⟩
      exact (hfits.2.2.2.2 r' hr').not_has hself ⟨by dsimp only; omega, by dsimp only; omega⟩
    have h1 : Kept { s with
        mmapCalls := s.mmapCalls + 1
        regions := ⟨raw, (mapSize (addS actual 8).val).val⟩ :: s.regions
        word := Function.update s.word raw (some actual) } t small ((raw + 8) :: held) strays := by
      refine ⟨inv1, h.pages.congr rfl (fun _ => rfl) (fun _ => rfl),
        fun p hp => List.mem_cons_of_mem _ (h.sub p hp), fun p hp => ?_⟩
      rcases List.mem_cons.mp hp with rfl | hp
      · exact .inr ⟨raw, actual, rfl, Function.update_self .., List.mem_cons_self, hlong, hfits.2.2.1, hnil⟩
      · refine (h.split p hp).imp_right fun hl => hl.mono (fun _ hr => List.mem_cons_of_mem _ hr) (fun _ _ hn => hn) ?_
        intro r' hr' w hw
        exact (Function.update_of_ne (hbase r' hr') ..).trans hw
    split at hd
    · obtain ⟨rfl, rfl⟩ := Prod.mk.inj (Option.some.inj hd)
      exact ⟨h1.threadInit host, (threadInit_frame host t _).2.1⟩
    · cases hd

theorem page_miInit (host : Host) (t : τ) (s : State τ) : (miInit host t s).page = s.page := by
  unfold miInit
  split
  · rfl
  · exact (threadInit_frame host t { s with initOnce := true }).2.1

theorem direct_miInit (host : Host) (t : τ) (s : State τ) (c : Nat) : (miInit host t s).direct t c = s.direct t c := by
  unfold miInit
  split
  · rfl
  · exact direct_threadInit host t { s with initOnce := true } c

theorem Kept.miMalloc (h : Kept s t small held strays) {n : Nat} (hm : miMalloc host t n s = some (r, s')) :
    (∃ small', Kept s' t small' (r.toList ++ held) strays) ∧
      (Grows s s' → s.direct t (miClassIndex n) = 0 ∨ s.freeBlocks (s.direct t (miClassIndex n)) = []) := by
  have h1 := h.miInit host
  have hpage := page_miInit host t s
  have hclass : miClassIndex (if n = 0 then 1 else n) = miClassIndex n := by
    by_cases h0 : n = 0
    · rw [if_pos h0, h0]
      rfl
    · rw [if_neg h0]
  unfold Mimalloc.miMalloc at hm
  dsimp only at hm
  generalize (if n = 0 then 1 else n) = n' at hm hclass
  split at hm
  · obtain ⟨h2, hsame⟩ := h1.directAlloc (sixteen_dvd_largeActual _) hm
    refine ⟨⟨small, h2⟩, fun ⟨seg, hold, hnew⟩ => ?_⟩
    rw [hsame, hpage, hold] at hnew
    cases hnew
  · rename_i hle
    obtain ⟨hk, hgrow⟩ := (h1.threadInit host).smallAlloc (miClassIndex_lt (Nat.not_lt.mp hle)) hm
    refine ⟨hk, fun ⟨seg, hold, hnew⟩ => ?_⟩
    have hpage' : (Mimalloc.threadInit host t (Mimalloc.miInit host t s)).page = s.page := (threadInit_frame host t _).2.1.trans hpage
    have := hgrow ⟨seg, by rw [hpage']; exact hold, hnew⟩
    rwa [hclass, direct_threadInit, direct_miInit, State.freeBlocks, hpage'] at this

end alloc

/-! ## Freeing -/

/-- A small block goes back to its page; it is lost if the heap does not remember the page. -/
theorem Pages.free (h : Pages s t small strays) (inv : Inv s small) (hpg : s.page seg = some pg)
    (hb : IsBlock seg pg p) (hp : p ∈ small) (hseg : segmentOf p = seg)
    (hpage : s'.page = Function.update s.page seg
      (some { pg with localFree := p :: pg.localFree, used := (pg.used + 2^32 - 1) % 2^32 }))
    (hheap : s'.heap = s.heap) : Pages s' t (small.filter (· ≠ p)) (strayClass s t p ++ strays) := by
  obtain ⟨c, hc, hsize⟩ := h.sized hpg
  have hdirect : ∀ c, s'.direct t c = s.direct t c := fun c => by rw [State.direct, State.direct, hheap]
  have hstray : strayClass s t p = if s.direct t c = seg then [] else [c] := by
    rw [strayClass, hseg, hpg]
    dsimp only
    rw [hsize, miClassIndex_miClassSize hc]
  constructor
  · intro a q hq
    rw [hheap]
    obtain ⟨-, rfl⟩ | ⟨-, hq⟩ := page_cases hpage hq
    · have := h.own hpg
      exact this
    · exact h.own hq
  · intro a q hq
    obtain ⟨-, rfl⟩ | ⟨-, hq⟩ := page_cases hpage hq
    · -- the block is one of those in use
      obtain ⟨hcount, hcap⟩ := h.count hpg
      obtain ⟨-, -, hok⟩ := inv.segment seg pg hpg
      obtain ⟨hnd, hout⟩ := inv.free seg pg hpg
      have hle := blocks_length_le (List.nodup_cons.mpr ⟨fun hin => hout p hin hp, hnd⟩)
        (List.forall_mem_cons.mpr ⟨hb, hok.blocks⟩)
      rw [List.length_cons] at hle
      dsimp only
      rw [List.length_cons]
      omega
    · exact h.count hq
  · intro a q hq
    obtain ⟨-, rfl⟩ | ⟨-, hq⟩ := page_cases hpage hq
    · have := h.sized hpg
      exact this
    · exact h.sized hq
  · intro a q x hq hx
    obtain ⟨rfl, rfl⟩ | ⟨ha, hq⟩ := page_cases hpage hq
    · rcases eq_or_ne x p with rfl | hne
      · exact .inl List.mem_cons_self
      · have hold : IsBlock a pg x := hx.congr rfl rfl
        refine (h.blocks hpg hold).imp (List.mem_cons_of_mem _) fun hx' => ?_
        exact List.mem_filter.mpr ⟨hx', decide_eq_true hne⟩
    · have hne : x ≠ p := fun e => ha (inv.isBlock_unique hpg hq hb (e ▸ hx))
      exact (h.blocks hq hx).imp_right fun hx' => List.mem_filter.mpr ⟨hx', decide_eq_true hne⟩
  · intro x hx
    exact isBlock_update hpage hpg rfl rfl (h.inPage (List.mem_filter.mp hx).1)
  · intro a q c' hq hq' hne hc'
    rw [List.mem_append, not_or, hstray] at hc'
    rw [hdirect] at hne
    obtain ⟨rfl, rfl⟩ | ⟨-, hq⟩ := page_cases hpage hq
    · obtain rfl := miClassSize_inj hc (hsize.symm.trans hq')
      rw [if_neg hne.symm] at hc'
      exact absurd List.mem_cons_self hc'.1
    · exact h.idle hq hq' hne hc'.2
  · intro c' hc'
    have hself := page_self hpage
    rw [hdirect]
    rcases List.mem_append.mp hc' with hnew | hold
    · rw [hstray] at hnew
      split at hnew
      · exact absurd hnew List.not_mem_nil
      · rename_i hne
        obtain rfl := List.mem_singleton.mp hnew
        exact ⟨seg, _, hself, hsize, fun e => hne e.symm, List.cons_ne_nil _ _⟩
    · obtain ⟨a, q, hq, hq', hne, hfree⟩ := h.lost hold
      rcases eq_or_ne a seg with rfl | ha
      · obtain rfl := Option.some.inj (hpg.symm.trans hq)
        exact ⟨a, _, hself, hq', hne, List.cons_ne_nil _ _⟩
      · exact ⟨a, q, (page_of_ne hpage ha).trans hq, hq', hne, hfree⟩

theorem mem_filter_ne {l : List Nat} {q : Nat} : q ∈ l.filter (· ≠ p) ↔ q ∈ l ∧ q ≠ p := by
  rw [List.mem_filter, decide_eq_true_iff]

theorem Kept.free_small (h : Kept s t small held strays) {user : Nat → Nat} (hp : p ∈ small)
    (hf : miFree user t p s = some s') :
    Kept s' t (small.filter (· ≠ p)) (held.filter (· ≠ p)) (strayClass s t p ++ strays) := by
  obtain ⟨seg, pg, hpg, hb⟩ := h.pages.inPage hp
  obtain ⟨hseg, hin, hhas⟩ := h.inv.inSegment_small hpg hb user
  have hown := h.pages.own hpg
  have howns : Owns s t p := by
    intro pg' hpg'
    exact h.pages.own hpg'
  rw [miFree, if_neg (h.inv.ne_zero hp)] at hf
  simp only [hin, hseg, hpg, Option.map_some, hhas, if_true, Option.some.injEq] at hf
  have inv1 := h.inv.pageFree hpg hb hseg hp howns
  rw [pageFree, if_pos hown, hseg] at hf inv1
  subst hf
  refine ⟨inv1, h.pages.free h.inv hpg hb hp hseg rfl rfl, fun q hq => ?_, fun q hq => ?_⟩
  · obtain ⟨hq, hne⟩ := mem_filter_ne.mp hq
    exact mem_filter_ne.mpr ⟨h.sub q hq, hne⟩
  · obtain ⟨hq, hne⟩ := mem_filter_ne.mp hq
    refine (h.split q hq).imp (fun hq => mem_filter_ne.mpr ⟨hq, hne⟩) fun hl => ?_
    refine hl.mono (fun _ hr => hr) (fun r _ hnone => ?_) (fun _ _ _ hw => hw)
    have : r.base ≠ seg := fun e => by rw [e, hpg] at hnone; cases hnone
    exact (Function.update_of_ne this ..).trans hnone

/-- The mapping of a large block. -/
def LargeAt.mapping (raw actual : Nat) : Region := ⟨raw, (mapSize (addS actual 8).val).val⟩

theorem LargeAt.has {raw actual : Nat} (h : LargeAt s p raw actual) : (LargeAt.mapping raw actual).Has p := by
  have hlong := h.long
  rw [h.eq]
  exact ⟨by dsimp only [LargeAt.mapping]; omega, by dsimp only [LargeAt.mapping]; omega⟩

theorem LargeAt.page_segmentOf {raw actual : Nat} (h : LargeAt s p raw actual) (inv : Inv s small) :
    s.page (segmentOf p) = none := by
  cases hpg : s.page (segmentOf p) with
  | none => rfl
  | some pg =>
    exfalso
    have hbound := inv.bound _ h.region
    have hhas := h.has
    have hlt : p < 2^64 := by
      have := hhas.2
      dsimp only [LargeAt.mapping] at this hbound
      omega
    have hseg : segmentOf p = p - p % 65536 := maskOff_two_pow (k := 16) hlt (by decide)
    have hmod := Nat.mod_lt p (by decide : 0 < 65536)
    have hin : Region.Has ⟨segmentOf p, segmentSize⟩ p := by
      constructor <;> dsimp only [segmentSize] <;> omega
    have e := inv.region_eq h.region (inv.segment _ pg hpg).1 hhas hin
    have hbase : raw = segmentOf p := congrArg Region.base e
    have hnone := h.page
    rw [hbase, hpg] at hnone
    cases hnone

/-- `mi_free` of a large block, if it comes back, unmaps the block's own mapping. -/
theorem LargeAt.miFree_eq {raw actual : Nat} (h : LargeAt s p raw actual) (inv : Inv s small) {user : Nat → Nat}
    (hf : miFree user t p s = some s') : s' = { s with
      regions := s.regions.flatMap (·.minus raw (mapSize (addS actual 8).val).val)
      page := fun a => if raw ≤ a ∧ a < raw + (mapSize (addS actual 8).val).val then none else s.page a
      word := fun a => if raw ≤ a ∧ a < raw + (mapSize (addS actual 8).val).val then none else s.word a } := by
  have hlong := h.long
  have heq := h.eq
  rw [miFree, if_neg (by omega)] at hf
  split at hf
  · cases hf
  · have hpeek : s.peek user (p - 8) = some actual := by
      rw [heq, Nat.add_sub_cancel, State.peek, mapped_of_has h.region ⟨Nat.le_refl _, by dsimp only; omega⟩, h.page, h.word]
      rfl
    rw [hpeek, Option.map_some, Option.some.injEq, heq, Nat.add_sub_cancel, rawFree] at hf
    rw [← hf, if_neg]
    rw [not_or, not_not]
    exact ⟨Nat.mod_eq_zero_of_dvd h.dvd, by omega⟩
  · rw [h.page_segmentOf inv] at hf
    cases hf

theorem Kept.free_large (h : Kept s t small held strays) {user : Nat → Nat} {raw actual : Nat} (hl : LargeAt s p raw actual)
    (hf : miFree user t p s = some s') : Kept s' t small (held.filter (· ≠ p)) strays := by
  -- the blocks of the segments lie elsewhere
  have hout : ∀ q ∈ small, ¬ (LargeAt.mapping raw actual).Has q := by
    intro q hq hasq
    obtain ⟨seg, pg, hpg, hb⟩ := h.pages.inPage hq
    have e := h.inv.region_eq hl.region (h.inv.segment seg pg hpg).1 hasq (h.inv.segment_has hpg hb)
    have hbase : raw = seg := congrArg Region.base e
    have hnone := hl.page
    rw [hbase, hpg] at hnone
    cases hnone
  have hinv := h.inv.unmap_empty hl.region hl.page hout
  have hpage : (fun a => if raw ≤ a ∧ a < raw + (mapSize (addS actual 8).val).val then none else s.page a) = s.page := by
    funext a
    split
    · next hin => exact (h.inv.no_segment hl.region hl.page hin).symm
    · rfl
  have hs := hl.miFree_eq h.inv hf
  rw [hpage] at hs
  rw [hpage] at hinv
  subst hs
  refine ⟨hinv, h.pages.congr rfl (fun _ => rfl) (fun _ => rfl),
    fun q hq => mem_filter_ne.mpr ⟨h.sub q hq, ?_⟩, fun q hq => ?_⟩
  · rintro rfl
    exact hout q hq hl.has
  · obtain ⟨hq, hne⟩ := mem_filter_ne.mp hq
    refine (h.split q hq).imp_right fun ⟨raw', actual', hl'⟩ => ?_
    -- another large block has another mapping
    have hraw : LargeAt.mapping raw' actual' ≠ LargeAt.mapping raw actual := by
      intro e
      have hbase : raw' = raw := congrArg Region.base e
      exact hne (hl'.eq.trans (hbase ▸ hl.eq.symm))
    have hkeep : ¬ (raw ≤ raw' ∧ raw' < raw + (mapSize (addS actual 8).val).val) := by
      intro hin
      have hlong := hl'.long
      exact hraw (h.inv.region_eq hl'.region hl.region ⟨Nat.le_refl _, by dsimp only [LargeAt.mapping]; omega⟩ hin)
    exact ⟨raw', actual', hl'.eq, (if_neg hkeep).trans hl'.word, (h.inv.mem_unmapped hl.region _).mpr ⟨hl'.region, hraw⟩,
      hl'.long, hl'.dvd, hl'.page⟩

theorem Kept.miFree (h : Kept s t small held strays) {user : Nat → Nat} (hp : p ∈ held)
    (hf : miFree user t p s = some s') :
    ∃ small', Kept s' t small' (held.filter (· ≠ p)) (strayClass s t p ++ strays) := by
  rcases h.split p hp with hsmall | ⟨raw, actual, hl⟩
  · exact ⟨_, h.free_small hsmall hf⟩
  · rw [strayClass, hl.page_segmentOf h.inv]
    exact ⟨small, h.free_large hl hf⟩

/-! ## Reuse before growth -/

variable [DecidableEq τ] {host : Host}

theorem ThreadRun.kept (h : ThreadRun host t s held strays) : ∃ small, Kept s t small held strays := by
  induction h with
  | start => exact ⟨[], Kept.start t⟩
  | malloc _ n exec ih =>
    obtain ⟨small, hk⟩ := ih
    exact (hk.miMalloc exec).1
  | free _ user p hp exec ih =>
    obtain ⟨small, hk⟩ := ih
    exact hk.miFree hp exec

/-- When `mi_malloc` maps a segment, all blocks of the thread's pages of the class are live exactly
if no block of the class has been freed to a page that was not remembered. -/
theorem reuse_before_growth_iff (host : Host) (t : τ) (s s' : State τ) (held strays : List Nat) (n : Nat) (r : Option Nat)
    (run : ThreadRun host t s held strays) (exec : miMalloc host t n s = some (r, s')) (grows : Grows s s') :
    AllLive s t held (miClassIndex n) ↔ miClassIndex n ∉ strays := by
  obtain ⟨small, hk⟩ := run.kept
  constructor
  · intro hall hc
    obtain ⟨seg, pg, hpg, hsize, -, hfree⟩ := hk.pages.lost hc
    exact hfree (hall seg pg hpg (hk.pages.own hpg) hsize).1
  · intro hc seg pg hpg _ hsize
    have hfree : pg.localFree = [] := by
      rcases eq_or_ne seg (s.direct t (miClassIndex n)) with e | hne
      · -- the remembered page was found empty
        have hold := ((hk.miMalloc exec).2 grows).resolve_left (e ▸ hk.inv.segment_ne_zero hpg)
        rw [← e, State.freeBlocks, hpg] at hold
        exact hold
      · exact hk.pages.idle hpg hsize hne hc
    refine ⟨hfree, fun p hb => hk.sub p ((hk.pages.blocks hpg hb).resolve_left ?_)⟩
    rw [hfree]
    exact List.not_mem_nil

/-- The first request of a process maps a segment, and there was no page before. -/
theorem first_growth : ∃ r s', miMalloc eagerHost 0 16 (State.start Nat) = some (r, s') ∧ Grows (State.start Nat) s' ∧
    AllLive (State.start Nat) 0 [] (miClassIndex 16) := by
  have hseg : (miMalloc eagerHost 0 16 (State.start Nat)).map (fun x => (x.2.page 1048576).isSome) = some true := by
    decide +kernel
  obtain ⟨⟨r, s'⟩, exec, hnew⟩ := Option.map_eq_some_iff.mp hseg
  have grows : Grows (State.start Nat) s' := ⟨1048576, rfl, hnew⟩
  exact ⟨r, s', exec, grows, (reuse_before_growth_iff eagerHost 0 _ _ [] [] 16 r .start exec grows).mpr List.not_mem_nil⟩

/-- `k` requests of `n` bytes in a new process, with the blocks. -/
def mallocs (host : Host) (t : τ) (n : Nat) : Nat → Option (State τ × List Nat)
  | 0 => some (State.start τ, [])
  | k + 1 => (mallocs host t n k).bind fun (s, held) =>
    (miMalloc host t n s).map fun (r, s') => (s', r.toList ++ held)

theorem ThreadRun.mallocs {n k : Nat} (h : mallocs host t n k = some (s, held)) : ThreadRun host t s held [] := by
  induction k generalizing s held with
  | zero =>
    obtain ⟨rfl, rfl⟩ := Prod.mk.inj (Option.some.inj h)
    exact .start
  | succ k ih =>
    obtain ⟨⟨s₀, held₀⟩, h₀, h⟩ := Option.bind_eq_some_iff.mp h
    obtain ⟨⟨r, s₁⟩, hm, h⟩ := Option.map_eq_some_iff.mp h
    obtain ⟨rfl, rfl⟩ := Prod.mk.inj h
    exact .malloc (ih h₀) n hm

/-- The page of fifteen blocks is forgotten when it is full: a block freed after that stays on its list
while the next request maps a segment. -/
theorem growth_beside_free_block : ∃ (s s' : State Nat) (held strays : List Nat) (r : Option Nat),
    ThreadRun eagerHost 0 s held strays ∧ miMalloc eagerHost 0 4096 s = some (r, s') ∧ Grows s s' ∧
      ¬ AllLive s 0 held (miClassIndex 4096) := by
  have hrun : ((mallocs eagerHost (0 : Nat) 4096 15).bind fun x => (miFree (fun _ => 0) 0 1048704 x.1).bind fun s =>
      (miMalloc eagerHost 0 4096 s).map fun y =>
        (decide (1048704 ∈ x.2) && (s.page 2097152).isNone && (y.2.page 2097152).isSome,
          (s.page 1048576).map fun pg => (pg.blockSize, pg.localFree))) =
      some (true, some (4096, [1048704])) := by
    decide +kernel
  obtain ⟨⟨s₀, held⟩, h₀, hrun⟩ := Option.bind_eq_some_iff.mp hrun
  obtain ⟨s, hfree, hrun⟩ := Option.bind_eq_some_iff.mp hrun
  obtain ⟨⟨r, s'⟩, exec, hrun⟩ := Option.map_eq_some_iff.mp hrun
  simp only [Prod.mk.injEq, Bool.and_eq_true, decide_eq_true_iff, Option.isNone_iff_eq_none,
    Option.map_eq_some_iff] at hrun
  obtain ⟨⟨⟨hheld, hold⟩, hnew⟩, pg, hpg, hsize, hlist⟩ := hrun
  have run := (ThreadRun.mallocs h₀).free _ _ hheld hfree
  refine ⟨s, s', _, _, r, run, exec, ⟨2097152, hold, hnew⟩, fun hall => ?_⟩
  obtain ⟨small, hk⟩ := run.kept
  have hnil := (hall 1048576 pg hpg (hk.pages.own hpg) (hsize.trans (by decide +kernel))).1
  rw [hlist] at hnil
  cases hnil

end MyMalloc.Mimalloc
