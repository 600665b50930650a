import MyMalloc.Classic.Tcmalloc.HeapOk

/- `tc_malloc` and the size it promises.

   The invariant `Inv` ties the layers together: every object of a central
   list or of a thread cache lies in a span in use of that class, and so does
   every block a caller holds. With it, the page map finds the span an object
   was carved from, and `tc_usable_size` reads its class or its length.

   `Serves` is what an allocation leaves behind, and `Serves.le_usable` what it
   means for the caller: the size reported covers the request, if the class
   table does. -/
namespace MyMalloc.Tcmalloc

open PageHeap

/-! ## What moving objects changes -/

/-- Only refcounts changed, and free lists of objects lost elements. -/
structure Calm (sp sp' : Nat → Span) : Prop where
  start : ∀ x, (sp' x).start = (sp x).start
  length : ∀ x, (sp' x).length = (sp x).length
  sizeClass : ∀ x, (sp' x).sizeClass = (sp x).sizeClass
  next : ∀ x, (sp' x).next = (sp x).next
  fewer : ∀ x, ∀ a ∈ (sp' x).freelist, a ∈ (sp x).freelist

theorem Calm.refl (sp : Nat → Span) : Calm sp sp :=
  ⟨fun _ => rfl, fun _ => rfl, fun _ => rfl, fun _ => rfl, fun _ _ h => h⟩

theorem Calm.trans {sp sp' sp'' : Nat → Span} (h : Calm sp sp') (h' : Calm sp' sp'') :
    Calm sp sp'' :=
  ⟨fun x => (h'.start x).trans (h.start x), fun x => (h'.length x).trans (h.length x),
    fun x => (h'.sizeClass x).trans (h.sizeClass x), fun x => (h'.next x).trans (h.next x),
    fun x a ha => h.fewer x a (h'.fewer x a ha)⟩

/-- A shorter free list and another refcount for one span. -/
theorem Calm.update (sp : Nat → Span) (g : Nat) {l : List Nat} {r : Nat}
    (hl : ∀ a ∈ l, a ∈ (sp g).freelist) :
    Calm sp (Function.update sp g { sp g with freelist := l, refcount := r }) := by
  have h : ∀ x, ∃ l', (∀ a ∈ l', a ∈ (sp x).freelist) ∧ ∃ r',
      Function.update sp g { sp g with freelist := l, refcount := r } x =
        { sp x with freelist := l', refcount := r' } := by
    intro x
    by_cases e : x = g
    · subst e
      exact ⟨l, hl, r, Function.update_self ..⟩
    · exact ⟨(sp x).freelist, fun _ h => h, (sp x).refcount, Function.update_of_ne e _ _⟩
  refine ⟨fun x => ?_, fun x => ?_, fun x => ?_, fun x => ?_, fun x => ?_⟩
  all_goals obtain ⟨l', hl', r', e⟩ := h x; rw [e]
  exact hl'

theorem Calm.dropRef (sp : Nat → Span) (g : Nat) : Calm sp (dropRef g sp) :=
  Calm.update sp g (fun _ h => h)

theorem Calm.has {sp sp' : Nat → Span} (h : Calm sp sp') (x pn : Nat) :
    (sp' x).Has pn ↔ (sp x).Has pn := by
  rw [Span.Has, Span.Has, h.start, h.length]

/-- `remove_range` hands out objects of the spans it knows, and knows no others after. -/
theorem removeLoop_moves (want : Nat) (gs empty : List Nat) (sp : Nat → Span) :
    Calm sp (removeLoop want gs empty sp).2.span ∧
      (∀ g ∈ (removeLoop want gs empty sp).2.members, g ∈ gs ++ empty) ∧
      ∀ a ∈ (removeLoop want gs empty sp).1, ∃ g ∈ gs, a ∈ (sp g).freelist := by
  induction gs generalizing want empty sp with
  | nil => exact ⟨Calm.refl sp, fun g hg => hg, by simp [removeLoop]⟩
  | cons g rest ih =>
    rw [removeLoop]
    split
    case isTrue => exact ⟨Calm.refl sp, fun g hg => hg, by simp⟩
    case isFalse =>
      have hcalm := Calm.update sp g (l := (sp g).freelist.drop want)
        (r := ((sp g).refcount + ((sp g).freelist.take want).length) % 2^32)
        (fun a ha => List.mem_of_mem_drop ha)
      dsimp only
      split
      case isTrue =>
        obtain ⟨h1, h2, h3⟩ := ih (want - ((sp g).freelist.take want).length) (g :: empty)
          (Function.update sp g { sp g with
            freelist := (sp g).freelist.drop want
            refcount := ((sp g).refcount + ((sp g).freelist.take want).length) % 2^32 })
        refine ⟨hcalm.trans h1, fun x hx => ?_, fun a ha => ?_⟩
        · have := h2 x hx
          simp only [List.mem_append, List.mem_cons] at this ⊢
          tauto
        · rcases List.mem_append.mp ha with ha | ha
          · exact ⟨g, List.mem_cons_self, List.mem_of_mem_take ha⟩
          · obtain ⟨x, hx, hax⟩ := h3 a ha
            exact ⟨x, List.mem_cons_of_mem _ hx, hcalm.fewer x a hax⟩
      case isFalse =>
        exact ⟨hcalm, fun x hx => hx, fun a ha => ⟨g, List.mem_cons_self, List.mem_of_mem_take ha⟩⟩

theorem insertOne_moves (l : Lists) : Calm l.span (insertOne l).span ∧
    ∀ g ∈ (insertOne l).members, g ∈ l.members := by
  obtain ⟨sp, ⟨nonempty, empty⟩⟩ := l
  simp only [insertOne]
  cases nonempty with
  | nil =>
    cases empty with
    | nil => exact ⟨Calm.refl sp, fun g hg => hg⟩
    | cons e empty => exact ⟨Calm.dropRef sp e, fun g hg => hg⟩
  | cons g rest =>
    dsimp only
    split
    case isTrue => exact ⟨Calm.dropRef sp g, fun g hg => hg⟩
    case isFalse =>
      cases empty with
      | nil => exact ⟨Calm.refl sp, fun g hg => hg⟩
      | cons e empty =>
        refine ⟨Calm.dropRef sp e, fun x hx => ?_⟩
        simp only [Lists.members, List.mem_append, List.mem_cons] at hx ⊢
        tauto

theorem insertRange_moves (chain : List Nat) (l : Lists) :
    Calm l.span (insertRange chain l).span ∧ ∀ g ∈ (insertRange chain l).members, g ∈ l.members := by
  induction chain generalizing l with
  | nil => exact ⟨Calm.refl _, fun g hg => hg⟩
  | cons a chain ih =>
    obtain ⟨h1, h2⟩ := insertOne_moves l
    obtain ⟨h3, h4⟩ := ih (insertOne l)
    exact ⟨h1.trans h3, fun g hg => h2 g (h4 g hg)⟩

/-! ## The invariant -/

/-- Object `a` lies in a span in use of class `c`. -/
def Owned (h : PageHeap) (place : Nat → Option Nat) (c a : Nat) : Prop :=
  ∃ g, h.Live g ∧ place g = none ∧ (h.span g).sizeClass = c ∧ (h.span g).Has (pageNumber a)

def CacheOk (h : PageHeap) (place : Nat → Option Nat) (tc : ThreadCache) : Prop :=
  ∀ c < kNumClasses, ∀ a ∈ tc.list c, Owned h place c a

/-- A span of the central list of class `c`: in use, of that class, its objects on its pages. -/
structure CentralSpan (h : PageHeap) (place : Nat → Option Nat) (c g : Nat) : Prop where
  live : h.Live g
  inUse : place g = none
  sizeClass : (h.span g).sizeClass = c
  objects : ∀ a ∈ (h.span g).freelist, (h.span g).Has (pageNumber a)

variable {τ : Type}

/-- The blocks in `held` are those callers hold. -/
structure Inv (s : State τ) (held : List Nat) (place : Nat → Option Nat) (L : Nat → List Nat) :
    Prop where
  heap : HeapOk s.heap place L 0
  central : ∀ c < kNumClasses, ∀ g ∈ (s.lists c).members, CentralSpan s.heap place c g
  cached : ∀ t tc, s.cache t = some tc → CacheOk s.heap place tc
  within : ∀ p ∈ held, ∃ g, s.heap.Live g ∧ place g = none ∧ (s.heap.span g).Has (pageNumber p)
  alone : ∀ p ∈ held, ∀ p' ∈ held, ∀ g, s.heap.Live g → kNumClasses ≤ (s.heap.span g).sizeClass →
    (s.heap.span g).Has (pageNumber p) → (s.heap.span g).Has (pageNumber p') → p = p'

variable {s : State τ} {held : List Nat} {place : Nat → Option Nat} {L : Nat → List Nat} {c : Nat}

theorem Owned.calm {h : PageHeap} {sp : Nat → Span} {a : Nat} (o : Owned h place c a)
    (hc : Calm h.span sp) : Owned { h with span := sp } place c a := by
  obtain ⟨g, h1, h2, h3, h4⟩ := o
  exact ⟨g, h1, h2, (hc.sizeClass g).trans h3, (hc.has g _).mpr h4⟩

theorem CentralSpan.calm {h : PageHeap} {sp : Nat → Span} {g : Nat}
    (o : CentralSpan h place c g) (hc : Calm h.span sp) :
    CentralSpan { h with span := sp } place c g :=
  ⟨o.live, o.inUse, (hc.sizeClass g).trans o.sizeClass,
    fun a ha => (hc.has g _).mpr (o.objects a (hc.fewer g a ha))⟩

theorem CacheOk.calm {h : PageHeap} {sp : Nat → Span} {tc : ThreadCache}
    (o : CacheOk h place tc) (hc : Calm h.span sp) : CacheOk { h with span := sp } place tc :=
  fun c hlt a ha => (o c hlt a ha).calm hc

theorem HeapOk.calm {h : PageHeap} {sp : Nat → Span} {taken : Nat}
    (ok : HeapOk h place L taken) (hc : Calm h.span sp) :
    HeapOk { h with span := sp } place L taken :=
  ok.congr (fun g => ⟨hc.start g, hc.length g⟩) hc.next rfl rfl rfl rfl

theorem Inv.putLists (inv : Inv s held place L) {l : Lists} (hc : Calm s.heap.span l.span)
    (hm : ∀ g ∈ l.members, g ∈ (s.lists c).members) : Inv (s.putLists c l) held place L := by
  refine ⟨inv.heap.calm hc, fun c' hlt g hg => ?_, fun t tc e => (inv.cached t tc e).calm hc,
    fun p hp => ?_, fun p hp p' hp' g lg hk a a' => ?_⟩
  · refine (inv.central c' hlt g ?_).calm hc
    by_cases e : c' = c
    · subst e
      refine hm g ?_
      simpa [State.lists, State.putLists, Lists.members] using hg
    · simpa [State.lists, State.putLists, Lists.members, Function.update_of_ne e] using hg
  · obtain ⟨g, h1, h2, h3⟩ := inv.within p hp
    exact ⟨g, h1, h2, (hc.has g _).mpr h3⟩
  · refine inv.alone p hp p' hp' g lg ?_ ((hc.has g _).mp a) ((hc.has g _).mp a')
    rw [← hc.sizeClass g]
    exact hk

theorem Inv.removeRange (inv : Inv s held place L) (hlt : c < kNumClasses) (want : Nat) :
    Inv (s.putLists c (removeRange want (s.lists c)).2) held place L ∧
      Calm s.heap.span (removeRange want (s.lists c)).2.span ∧
      ∀ a ∈ (removeRange want (s.lists c)).1,
        Owned (s.putLists c (removeRange want (s.lists c)).2).heap place c a := by
  obtain ⟨h1, h2, h3⟩ := removeLoop_moves want (s.central c).nonempty (s.central c).empty s.heap.span
  refine ⟨inv.putLists h1 h2, h1, fun a ha => ?_⟩
  obtain ⟨g, hg, hag⟩ := h3 a ha
  have o := inv.central c hlt g (List.mem_append_left _ hg)
  exact Owned.calm ⟨g, o.live, o.inUse, o.sizeClass, o.objects a hag⟩ h1

theorem Inv.takeOne (inv : Inv s held place L) (hlt : c < kNumClasses) :
    Inv (takeOne c s).2 held place L ∧
      ∀ a, (takeOne c s).1 = some a → Owned (takeOne c s).2.heap place c a := by
  obtain ⟨h1, -, h3⟩ := inv.removeRange hlt 1
  exact ⟨h1, fun a ha => h3 a (List.mem_of_mem_head? ha)⟩

/-! ## The thread cache -/

theorem CacheOk.setList {h : PageHeap} {tc tc' : ThreadCache} {l : List Nat}
    (ok : CacheOk h place tc) (hl : c < kNumClasses → ∀ a ∈ l, Owned h place c a)
    (e : tc'.list = Function.update tc.list c l) : CacheOk h place tc' := by
  intro c' hlt' a ha
  rw [e] at ha
  by_cases hc : c' = c
  · subst hc
    rw [Function.update_self] at ha
    exact hl hlt' a ha
  · rw [Function.update_of_ne hc] at ha
    exact ok c' hlt' a ha

theorem CacheOk.pop {h : PageHeap} {tc : ThreadCache} (ok : CacheOk h place tc)
    (hlt : c < kNumClasses) :
    CacheOk h place (popCache c tc).2 ∧ ∀ a, (popCache c tc).1 = some a → Owned h place c a := by
  cases hl : tc.list c with
  | nil =>
    have e : popCache c tc = (none, tc) := by simp only [popCache, hl]
    rw [e]
    exact ⟨ok, nofun⟩
  | cons a l =>
    have hall := ok c hlt
    rw [hl] at hall
    simp only [popCache, hl]
    refine ⟨ok.setList (fun _ b hb => hall b (List.mem_cons_of_mem _ hb)) rfl, fun b e => ?_⟩
    rw [← Option.some.inj e]
    exact hall a List.mem_cons_self

theorem Inv.refill (inv : Inv s held place L) (hlt : c < kNumClasses) {tc : ThreadCache}
    (ok : CacheOk s.heap place tc) :
    Inv (refill c tc s).2 held place L ∧ CacheOk (refill c tc s).2.heap place (refill c tc s).1 := by
  obtain ⟨h1, hcalm, h3⟩ := inv.removeRange hlt (max (tc.maxCount c) (kClassInfo c).numToMove)
  have ok' := ok.calm hcalm
  simp only [Tcmalloc.refill]
  split
  · exact ⟨h1, ok'⟩
  · refine ⟨h1, ok'.setList (fun _ a ha => ?_) rfl⟩
    rcases List.mem_append.mp ha with ha | ha
    · exact h3 a ha
    · exact ok' c hlt a ha

theorem Inv.cacheAlloc (inv : Inv s held place L) (hlt : c < kNumClasses) {tc : ThreadCache}
    (ok : CacheOk s.heap place tc) :
    Inv (cacheAlloc c tc s).2.2 held place L ∧
      CacheOk (cacheAlloc c tc s).2.2.heap place (cacheAlloc c tc s).2.1 ∧
      ∀ a, (cacheAlloc c tc s).1 = some a → Owned (cacheAlloc c tc s).2.2.heap place c a := by
  rw [Tcmalloc.cacheAlloc]
  split
  · exact ⟨inv, ok.pop hlt⟩
  · obtain ⟨h1, h2⟩ := inv.refill hlt ok
    exact ⟨h1, h2.pop hlt⟩

theorem Inv.scavengeClass {p : ThreadCache × State τ} (inv : Inv p.2 held place L)
    (ok : CacheOk p.2.heap place p.1) (i : Nat) :
    Inv (scavengeClass p i).2 held place L ∧
      CacheOk (scavengeClass p i).2.heap place (scavengeClass p i).1 ∧
      ∀ c a, Owned p.2.heap place c a → Owned (scavengeClass p i).2.heap place c a := by
  obtain ⟨tc, s⟩ := p
  simp only [Tcmalloc.scavengeClass]
  split
  · obtain ⟨hcalm, hm⟩ := insertRange_moves
      ((tc.list i).take ((tc.list i).length - tc.lowWater i)) (s.lists i)
    have ok' : CacheOk { s.heap with span := _ } place tc := CacheOk.calm ok hcalm
    exact ⟨inv.putLists hcalm hm, ok'.setList
      (fun hlt a ha => ok' i hlt a (List.mem_of_mem_drop ha)) rfl, fun c a o => o.calm hcalm⟩
  · exact ⟨inv, ok, fun _ _ o => o⟩

theorem Inv.scavenge (inv : Inv s held place L) {tc : ThreadCache} (ok : CacheOk s.heap place tc) :
    Inv (scavenge tc s).2 held place L ∧
      CacheOk (scavenge tc s).2.heap place (scavenge tc s).1 ∧
      ∀ c a, Owned s.heap place c a → Owned (scavenge tc s).2.heap place c a := by
  have hfold : ∀ (is : List Nat) (p : ThreadCache × State τ), Inv p.2 held place L →
      CacheOk p.2.heap place p.1 → Inv (is.foldl Tcmalloc.scavengeClass p).2 held place L ∧
        CacheOk (is.foldl Tcmalloc.scavengeClass p).2.heap place
          (is.foldl Tcmalloc.scavengeClass p).1 ∧
        ∀ c a, Owned p.2.heap place c a →
          Owned (is.foldl Tcmalloc.scavengeClass p).2.heap place c a := by
    intro is
    induction is with
    | nil => exact fun p hi ho => ⟨hi, ho, fun _ _ o => o⟩
    | cons i is ih =>
      intro p hi ho
      obtain ⟨h1, h2, h3⟩ := hi.scavengeClass ho i
      obtain ⟨h4, h5, h6⟩ := ih _ h1 h2
      exact ⟨h4, h5, fun c a o => h6 c a (h3 c a o)⟩
  obtain ⟨h1, h2, h3⟩ := hfold (List.range kNumClasses) (tc, s) inv ok
  rw [Tcmalloc.scavenge]
  generalize (List.range kNumClasses).foldl Tcmalloc.scavengeClass (tc, s) = r at h1 h2 h3 ⊢
  exact ⟨h1, h2, h3⟩

theorem Inv.cacheFree (inv : Inv s held place L) {tc : ThreadCache} (ok : CacheOk s.heap place tc)
    {ptr : Nat} (o : Owned s.heap place c ptr) :
    Inv (cacheFree c ptr tc s).2 held place L ∧
      CacheOk (cacheFree c ptr tc s).2.heap place (cacheFree c ptr tc s).1 := by
  -- the first scavenge, if any, leaves the object where it is
  have hfirst : ∀ r : ThreadCache × State τ,
      r = (if tc.maxCount c ≤ (tc.list c).length then Tcmalloc.scavenge tc s else (tc, s)) →
      Inv r.2 held place L ∧ CacheOk r.2.heap place r.1 ∧ Owned r.2.heap place c ptr := by
    rintro r rfl
    split
    · obtain ⟨h1, h2, h3⟩ := inv.scavenge ok
      exact ⟨h1, h2, h3 c ptr o⟩
    · exact ⟨inv, ok, o⟩
  simp only [Tcmalloc.cacheFree]
  generalize hr : (if tc.maxCount c ≤ (tc.list c).length then Tcmalloc.scavenge tc s
    else (tc, s)) = r
  obtain ⟨h1, h2, h3⟩ := hfirst r hr.symm
  have hpush : CacheOk r.2.heap place (pushCache c ptr r.1) := by
    refine h2.setList (c := c) (fun hlt a ha => ?_) rfl
    rcases List.mem_cons.mp ha with rfl | ha
    · exact h3
    · exact h2 c hlt a ha
  split
  · obtain ⟨h4, h5, -⟩ := h1.scavenge hpush
    exact ⟨h4, h5⟩
  · exact ⟨h1, hpush⟩

/-! ## Handing out a span -/

/-- Span `g` is still there, with the same pages and the same class. -/
structure Kept (h h' : PageHeap) (g : Nat) : Prop where
  live : h'.Live g
  start : (h'.span g).start = (h.span g).start
  length : (h'.span g).length = (h.span g).length
  sizeClass : (h'.span g).sizeClass = (h.span g).sizeClass

namespace Kept

variable {h h' h'' : PageHeap} {g : Nat}

theorem refl (hl : h.Live g) : Kept h h g := ⟨hl, rfl, rfl, rfl⟩

theorem trans (k : Kept h h' g) (k' : Kept h' h'' g) : Kept h h'' g :=
  ⟨k'.live, k'.start.trans k.start, k'.length.trans k.length, k'.sizeClass.trans k.sizeClass⟩

theorem has (k : Kept h h' g) {pn : Nat} : (h'.span g).Has pn ↔ (h.span g).Has pn := by
  rw [Span.Has, Span.Has, k.start, k.length]

end Kept

/-- The spans in use stay. -/
def Keeps (s s' : State τ) (place place' : Nat → Option Nat) : Prop :=
  ∀ g, s.heap.Live g → place g = none → Kept s.heap s'.heap g ∧ place' g = none

theorem Keeps.refl (s : State τ) (place : Nat → Option Nat) : Keeps s s place place :=
  fun _ hl hu => ⟨.refl hl, hu⟩

theorem Keeps.trans {s s' s'' : State τ} {place' place'' : Nat → Option Nat} (h : Keeps s s' place place')
    (h' : Keeps s' s'' place' place'') : Keeps s s'' place place'' := by
  intro g hl hu
  obtain ⟨hk, hu'⟩ := h g hl hu
  exact ⟨hk.trans (h' g hk.live hu').1, (h' g hk.live hu').2⟩

theorem Inv.handed (inv : Inv s held place L) {h' : PageHeap} {place' : Nat → Option Nat}
    {L' : Nat → List Nat} {g k : Nat} {f : Span → Span} (ok : HeapOk h' place' L' 0)
    (hd : Handed s.heap h' place place' g) (h1 : (f (h'.span g)).start = (h'.span g).start)
    (h2 : (f (h'.span g)).length = (h'.span g).length)
    (h3 : (f (h'.span g)).next = (h'.span g).next) :
    Inv { s with heap := h'.modify g f, mmapCalls := k } held place' L' ∧
      (∀ p ∈ held, ¬ ((h'.modify g f).span g).Has (pageNumber p)) ∧
      Keeps s { s with heap := h'.modify g f, mmapCalls := k } place place' := by
  have hok := ok.modify h1 h2 h3
  have hkeep : ∀ x, s.heap.Live x → place x = none → (h'.modify g f).Live x ∧ place' x = none ∧
      ((h'.modify g f).span x).body = (s.heap.span x).body := by
    intro x lx ex
    obtain ⟨k1, k2, k3⟩ := hd.keep x lx ex
    refine ⟨k1, k2, ?_⟩
    have hne : x ≠ g := fun e => hd.fresh (e ▸ ⟨lx, ex⟩)
    rw [modify_span_of_ne hne, k3]
  have hown : ∀ c a, Owned s.heap place c a → Owned (h'.modify g f) place' c a := by
    rintro c a ⟨x, lx, ex, hx, ha⟩
    obtain ⟨k1, k2, k3⟩ := hkeep x lx ex
    refine ⟨x, k1, k2, ?_, (body_has k3 _).mpr ha⟩
    simp only [Span.body, Prod.mk.injEq] at k3
    exact k3.2.2.1.trans hx
  -- a block a caller holds lies in a span that was in use before
  have hheld : ∀ p ∈ held, ∀ x, (h'.modify g f).Live x →
      ((h'.modify g f).span x).Has (pageNumber p) → s.heap.Live x ∧ place x = none := by
    intro p hp x lx a
    obtain ⟨y, ly, ey, ay⟩ := inv.within p hp
    obtain ⟨k1, k2, k3⟩ := hkeep y ly ey
    by_cases e : x = y
    · subst e; exact ⟨ly, ey⟩
    · exact absurd rfl (hok.apart x y _ _ lx k1 e a ((body_has k3 _).mpr ay))
  refine ⟨⟨hok, fun c hlt x hx => ?_, fun t tc e c hlt a ha => hown c a (inv.cached t tc e c hlt a ha),
    fun p hp => ?_, fun p hp p' hp' x lx hk a a' => ?_⟩, fun p hp a => ?_, fun x lx ex => ?_⟩
  · have o := inv.central c hlt x ?_
    · obtain ⟨k1, k2, k3⟩ := hkeep x o.live o.inUse
      have hb := k3
      simp only [Span.body, Prod.mk.injEq] at hb
      exact ⟨k1, k2, hb.2.2.1.trans o.sizeClass, fun a ha =>
        (body_has k3 _).mpr (o.objects a (hb.2.2.2 ▸ ha))⟩
    · exact hx
  · obtain ⟨x, lx, ex, hx⟩ := inv.within p hp
    obtain ⟨k1, k2, k3⟩ := hkeep x lx ex
    exact ⟨x, k1, k2, (body_has k3 _).mpr hx⟩
  · obtain ⟨lx', ex'⟩ := hheld p hp x lx a
    obtain ⟨-, -, k3⟩ := hkeep x lx' ex'
    have hb := k3
    simp only [Span.body, Prod.mk.injEq] at hb
    exact inv.alone p hp p' hp' x lx' (hb.2.2.1 ▸ hk) ((body_has k3 _).mp a) ((body_has k3 _).mp a')
  · obtain ⟨lx, ex⟩ := hheld p hp g hd.live a
    exact hd.fresh ⟨lx, ex⟩
  · obtain ⟨k1, k2, hb⟩ := hkeep x lx ex
    simp only [Span.body, Prod.mk.injEq] at hb
    exact ⟨⟨k1, hb.1, hb.2.1, hb.2.2.1⟩, k2⟩

/-! ## Addresses and pages -/

theorem pageNumber_add (start d : Nat) : pageNumber (pageAddr start + d) = start + d / kPageSize := by
  have e : kPageSize = 8192 := rfl
  rw [pageNumber, pageAddr, kPageShift, Nat.shiftRight_eq_div_pow, Nat.shiftLeft_eq, e]
  omega

theorem pageNumber_pageAddr (start : Nat) : pageNumber (pageAddr start) = start := by
  simpa using pageNumber_add start 0

theorem has_of_mem_buildFreelist {sp : Span} {size a : Nat} (hs : 0 < size)
    (ha : a ∈ buildFreelist sp.start sp.length size) : sp.Has (pageNumber a) := by
  rw [buildFreelist, List.mem_reverse, List.mem_map] at ha
  obtain ⟨i, hi, rfl⟩ := ha
  rw [List.mem_range] at hi
  have h1 : i * size < sp.length * kPageSize := by
    calc i * size < (i + 1) * size := Nat.mul_lt_mul_of_pos_right (Nat.lt_succ_self i) hs
      _ ≤ sp.length * kPageSize / size * size := Nat.mul_le_mul_right _ hi
      _ ≤ sp.length * kPageSize := Nat.div_mul_le_self _ _
  have h2 : i * size / kPageSize < sp.length := Nat.div_lt_of_lt_mul (by rwa [Nat.mul_comm kPageSize])
  rw [pageNumber_add]
  exact ⟨Nat.le_add_right _ _, by omega⟩

theorem largePages_spec {n : Nat} (h1 : 1 ≤ n) (h2 : n ≤ 2^64 - kPageSize) :
    1 ≤ largePages n ∧ n ≤ largePages n * kPageSize := by
  have e : kPageSize = 8192 := rfl
  rw [e] at h2
  rw [largePages, kPageShift, Nat.shiftRight_eq_div_pow, e, Nat.mod_eq_of_lt (by omega)]
  omega

/-- What `mmap` answers next is a whole number of pages, and its page map entries are free. -/
def Room (host : Host) (s : State τ) (n : Nat) : Prop :=
  ∀ raw, host.mmap s.mmapCalls = some raw → raw % kPageSize = 0 ∧
    RegionFits s.heap (pageNumber raw) (if kMaxPages < n then n else kMaxPages)

variable {host : Host}

/-- Objects moved, but no span was handed out. -/
def Quiet (s s' : State τ) : Prop :=
  s'.mmapCalls = s.mmapCalls ∧ ∃ sp, Calm s.heap.span sp ∧ s'.heap = { s.heap with span := sp }

theorem Quiet.trans {s s' s'' : State τ} (h : Quiet s s') (h' : Quiet s' s'') : Quiet s s'' := by
  obtain ⟨e, sp, hc, hs⟩ := h
  obtain ⟨e', sp', hc', hs'⟩ := h'
  rw [hs] at hc' hs'
  exact ⟨e'.trans e, sp', hc.trans hc', hs'⟩

theorem Quiet.of_heap {s s' : State τ} (e : s'.heap = s.heap) (e' : s'.mmapCalls = s.mmapCalls) :
    Quiet s s' := ⟨e', s.heap.span, Calm.refl _, e⟩

theorem Quiet.kept (hq : Quiet s s') {g : Nat} (hl : s.heap.Live g) : Kept s.heap s'.heap g := by
  obtain ⟨-, sp, hcalm, hheap⟩ := hq
  rw [hheap]
  exact ⟨hl, hcalm.start g, hcalm.length g, hcalm.sizeClass g⟩

theorem Quiet.keeps (hq : Quiet s s') (place : Nat → Option Nat) : Keeps s s' place place :=
  fun _ hl hu => ⟨hq.kept hl, hu⟩

theorem Quiet.removeRange (s : State τ) (c want : Nat) :
    Quiet s (s.putLists c (removeRange want (s.lists c)).2) :=
  ⟨rfl, _, (removeLoop_moves want _ _ _).1, rfl⟩

theorem Quiet.addSpan (s : State τ) (c g : Nat) : Quiet s (s.putLists c (addSpan g (s.lists c))) :=
  .of_heap rfl rfl

theorem Quiet.cacheAlloc (s : State τ) (c : Nat) (tc : ThreadCache) :
    Quiet s (cacheAlloc c tc s).2.2 := by
  rw [Tcmalloc.cacheAlloc]
  split
  · exact .of_heap rfl rfl
  · simp only [Tcmalloc.refill]
    split <;> exact Quiet.removeRange s c _

theorem Room.quiet {s s' : State τ} {n : Nat} (h : Room host s n) (hq : Quiet s s') :
    Room host s' n := by
  obtain ⟨e, sp, hc, hs⟩ := hq
  intro raw hraw
  rw [e] at hraw
  obtain ⟨h1, h2⟩ := h raw hraw
  refine ⟨h1, h2.inside, fun g lg pn a => ?_⟩
  rw [hs] at lg a
  exact h2.apart g lg pn ((hc.has g pn).mp a)

theorem modifySpan_self (s : State τ) (g : Nat) (f : Span → Span) :
    (s.modifySpan g f).heap.span g = f (s.heap.span g) := Function.update_self ..

section
variable (inv : Inv s held place L)
include inv

theorem Inv.allocSpan {n g : Nat} {s₁ : State τ}
    (hr : s.allocSpan host n = (g, s₁)) (hroom : Room host s n) {f : Span → Span}
    (h1 : ∀ sp, (f sp).start = sp.start) (h2 : ∀ sp, (f sp).length = sp.length)
    (h3 : ∀ sp, (f sp).next = sp.next) :
    (g = 0 ∧ Inv s₁ held place L ∧ Keeps s s₁ place place) ∨
    (g ≠ 0 ∧ ∃ place' L', Inv (s₁.modifySpan g f) held place' L' ∧ s₁.heap.Live g ∧
      place' g = none ∧ (s₁.heap.span g).length = n ∧
      (∀ p ∈ held, ¬ ((s₁.modifySpan g f).heap.span g).Has (pageNumber p)) ∧
      Keeps s (s₁.modifySpan g f) place place') := by
  obtain ⟨rfl, rfl⟩ := Prod.mk.inj hr
  rcases inv.heap.allocSpan (n := n) (fun raw e => (hroom raw e).2) with
    e | ⟨place', L', ok, hne, hd, hlen⟩
  · left
    simp only [e]
    exact ⟨trivial, ⟨inv.heap, inv.central, inv.cached, inv.within, inv.alone⟩, fun _ hl hu => ⟨.refl hl, hu⟩⟩
  · right
    obtain ⟨hinv, hout, hkeeps⟩ := inv.handed (f := f) (k := if (s.heap.findFree n).isNone then
      s.mmapCalls + 1 else s.mmapCalls) ok hd (h1 _) (h2 _) (h3 _)
    exact ⟨hne, place', L', hinv, hd.live, hd.inUse, hlen, hout, hkeeps⟩

/-- A large allocation is a span of its own that covers the request. -/
structure LargeBlock (h : PageHeap) (place : Nat → Option Nat) (held : List Nat) (n p g : Nat) :
    Prop where
  live : h.Live g
  inUse : place g = none
  sizeClass : (h.span g).sizeClass = kNumClasses
  base : p = pageAddr (h.span g).start
  covers : n ≤ (h.span g).length * kPageSize
  alone : ∀ p' ∈ held, ¬ (h.span g).Has (pageNumber p')

theorem Inv.largeAlloc {n : Nat} (h1 : 1 ≤ n)
    (h2 : n ≤ 2^64 - kPageSize) (hroom : Room host s (largePages n)) :
    ∃ place' L', Inv (largeAlloc host n s).2 held place' L' ∧
      (∀ p, (largeAlloc host n s).1 = some p →
        ∃ g, LargeBlock (largeAlloc host n s).2.heap place' held n p g) ∧
      Keeps s (largeAlloc host n s).2 place place' := by
  obtain ⟨g, s₁, hr⟩ : ∃ g s₁, s.allocSpan host (largePages n) = (g, s₁) := ⟨_, _, rfl⟩
  simp only [Tcmalloc.largeAlloc, hr]
  rcases inv.allocSpan hr hroom (f := ({ · with sizeClass := kNumClasses, refcount := 1 }))
    (fun _ => rfl) (fun _ => rfl) (fun _ => rfl) with
    ⟨rfl, hinv, hkeeps⟩ | ⟨hne, place', L', hinv, hl, hp, hlen, ha, hkeeps⟩
  · rw [if_pos rfl]
    exact ⟨place, L, hinv, nofun, hkeeps⟩
  · rw [if_neg hne]
    refine ⟨place', L', hinv, fun p e => ⟨g, hl, hp, ?_, (Option.some.inj e).symm, ?_, ha⟩, hkeeps⟩
    · rw [modifySpan_self]
    · rw [modifySpan_self, hlen]
      exact (largePages_spec h1 h2).2

theorem Inv.addSpan {g : Nat} (hg : CentralSpan s.heap place c g) :
    Inv (s.putLists c (addSpan g (s.lists c))) held place L := by
  refine ⟨inv.heap, fun c' hlt' x hx => ?_, inv.cached, inv.within, inv.alone⟩
  by_cases e : c' = c
  · subst e
    have hx' : x = g ∨ x ∈ (s.lists c').members := by
      simpa [State.lists, State.putLists, Lists.members, Tcmalloc.addSpan] using hx
    rcases hx' with rfl | hx'
    · exact hg
    · exact inv.central c' hlt' x hx'
  · refine inv.central c' hlt' x ?_
    simpa [State.lists, State.putLists, Lists.members, Function.update_of_ne e] using hx

theorem Inv.carveSpan (hlt : c < kNumClasses) (hroom : Room host s 1) :
    ∃ place' L', Inv (carveSpan host c s).2 held place' L' ∧
      (∀ a, (carveSpan host c s).1 = some a → Owned (carveSpan host c s).2.heap place' c a) ∧
      Keeps s (carveSpan host c s).2 place place' := by
  obtain ⟨g, s₁, hr⟩ : ∃ g s₁, s.allocSpan host (kClassInfo c).pages = (g, s₁) := ⟨_, _, rfl⟩
  simp only [Tcmalloc.carveSpan, hr]
  rcases inv.allocSpan hr hroom (f := fun sp => { sp with
      sizeClass := c
      freelist := buildFreelist sp.start sp.length (kClassInfo c).size
      refcount := 0 }) (fun _ => rfl) (fun _ => rfl) (fun _ => rfl) with
    ⟨rfl, hinv, hkeeps⟩ | ⟨hne, place', L', hinv, hl, hp, hlen, -, hkeeps⟩
  · rw [if_pos rfl]
    exact ⟨place, L, hinv, nofun, hkeeps⟩
  · rw [if_neg hne]
    have hsize : 0 < (kClassInfo c).size :=
      Nat.lt_of_lt_of_le (by decide) (classSize_bounds c hlt).1
    have hnew := modifySpan_self s₁ g (fun sp => { sp with
      sizeClass := c
      freelist := buildFreelist sp.start sp.length (kClassInfo c).size
      refcount := 0 })
    have hadd := hinv.addSpan (c := c) ⟨hl, hp, by rw [hnew], fun a ha => by
      rw [hnew] at ha ⊢
      exact has_of_mem_buildFreelist hsize ha⟩
    obtain ⟨h1, h2⟩ := hadd.takeOne hlt
    exact ⟨place', L', h1, h2, hkeeps.trans (((Quiet.addSpan _ c g).trans (Quiet.removeRange _ c 1)).keeps place')⟩

/-- Where a block of `n` bytes lies: in an object that covers it if the table does, or in a
span of its own. -/
def Serves (h : PageHeap) (place : Nat → Option Nat) (held : List Nat) (n p : Nat) : Prop :=
  ∃ g, h.Live g ∧ place g = none ∧ (h.span g).Has (pageNumber p) ∧
    (((h.span g).sizeClass < kNumClasses ∧ n ≤ kMaxSize ∧
        (n ≤ 1080 → n ≤ (kClassInfo (h.span g).sizeClass).size)) ∨
      ((h.span g).sizeClass = kNumClasses ∧ n ≤ (h.span g).length * kPageSize ∧
        ∀ p' ∈ held, ¬ (h.span g).Has (pageNumber p')))

theorem Inv.hold {n p : Nat} (h : Serves s.heap place held n p) :
    Inv s (p :: held) place L := by
  obtain ⟨g, hl, hu, ha, hk⟩ := h
  -- a large span that holds the new block is `g`, and holds no other
  have hnew : ∀ x, s.heap.Live x → kNumClasses ≤ (s.heap.span x).sizeClass →
      (s.heap.span x).Has (pageNumber p) → ∀ q ∈ held, ¬ (s.heap.span x).Has (pageNumber q) := by
    intro x lx hkx ax q hq
    have e : x = g := by
      by_contra hne
      exact inv.heap.apart x g _ _ lx hl hne ax ha rfl
    subst e
    rcases hk with ⟨hc, -⟩ | ⟨-, -, hk⟩
    · omega
    · exact hk q hq
  refine ⟨inv.heap, inv.central, inv.cached, fun q hq => ?_, fun q hq q' hq' x lx hkx a a' => ?_⟩
  · rcases List.mem_cons.mp hq with rfl | hq
    · exact ⟨g, hl, hu, ha⟩
    · exact inv.within q hq
  · rcases List.mem_cons.mp hq with e | h1
    · subst e
      rcases List.mem_cons.mp hq' with e' | h2
      · exact e'.symm
      · exact absurd a' (hnew x lx hkx a q' h2)
    · rcases List.mem_cons.mp hq' with e' | h2
      · subst e'
        exact absurd a (hnew x lx hkx a' q h1)
      · exact inv.alone q h1 q' h2 x lx hkx a a'

/-! ## Freeing -/

theorem Inv.forget {held' : List Nat} (h : ∀ p ∈ held', p ∈ held) :
    Inv s held' place L :=
  ⟨inv.heap, inv.central, inv.cached, fun p hp => inv.within p (h p hp),
    fun p hp p' hp' => inv.alone p (h p hp) p' (h p' hp')⟩

theorem Inv.largeFree {p g : Nat} (hp : p ∈ held)
    (hl : s.heap.Live g) (hu : place g = none) (ha : (s.heap.span g).Has (pageNumber p))
    (hk : kNumClasses ≤ (s.heap.span g).sizeClass) {held' : List Nat}
    (hsub : ∀ q ∈ held', q ∈ held ∧ q ≠ p) : Inv (largeFree p s) held' place L := by
  have hget := inv.heap.mapped g _ hl hu (Nat.ne_of_gt hl.1) ha
  have hg0 : ¬ g = 0 := Nat.ne_of_gt hl.1
  simp only [Tcmalloc.largeFree, hget, if_neg hg0]
  have hlive : ∀ x, (1 ≤ x ∧ x ≤ s.heap.spans ∧ x ∉ g :: s.heap.deleted) → s.heap.Live x :=
    fun x hx => ⟨hx.1, hx.2.1, fun hm => hx.2.2 (List.mem_cons_of_mem _ hm)⟩
  have hother : ∀ x, s.heap.Live x → x ≠ g →
      1 ≤ x ∧ x ≤ s.heap.spans ∧ x ∉ g :: s.heap.deleted := fun x lx ne =>
    ⟨lx.1, lx.2.1, fun hm => (List.mem_cons.mp hm).elim ne lx.2.2⟩
  have hsmall : ∀ x, (s.heap.span x).sizeClass < kNumClasses → x ≠ g := fun x hx e => by
    rw [e] at hx; omega
  refine ⟨⟨inv.heap.shelved, fun x k e => ?_, ?_, ?_, ?_, ?_⟩, fun c hlt x hx => ?_,
    fun t tc e c hlt a hm => ?_, fun q hq => ?_, fun q hq q' hq' x lx => ?_⟩
  · obtain ⟨h1, h2⟩ := inv.heap.listed x k e
    exact ⟨hother x h1 (fun e' => by rw [e', hu] at e; cases e), h2⟩
  · exact fun x y pn pn' lx ly => inv.heap.apart x y pn pn' (hlive x lx) (hlive y ly)
  · exact fun x pn lx => inv.heap.mapped x pn (hlive x lx)
  · exact fun x lx => inv.heap.inside x (hlive x lx)
  · intro x hx
    rcases List.mem_cons.mp hx with rfl | hx
    · exact hl.2.1
    · exact inv.heap.old x hx
  · have o := inv.central c hlt x hx
    exact ⟨hother x o.live (hsmall x (by rw [o.sizeClass]; exact hlt)), o.inUse, o.sizeClass, o.objects⟩
  · obtain ⟨x, h1, h2, h3, h4⟩ := inv.cached t tc e c hlt a hm
    exact ⟨x, hother x h1 (hsmall x (by rw [h3]; exact hlt)), h2, h3, h4⟩
  · -- another block of this span would be the one that was freed
    obtain ⟨hq1, hq2⟩ := hsub q hq
    obtain ⟨x, h1, h2, h3⟩ := inv.within q hq1
    refine ⟨x, hother x h1 (fun e => hq2 ?_), h2, h3⟩
    subst e
    exact inv.alone q hq1 p hp x hl hk h3 ha
  · exact inv.alone q (hsub q hq).1 q' (hsub q' hq').1 x (hlive x lx)

end

/-- A small block is freed by a thread that has a cache. -/
def FreeFits (s : State τ) (t : τ) (p : Nat) : Prop :=
  (s.heap.span (s.heap.get (pageNumber p))).sizeClass < kNumClasses → (s.cache t).isSome

theorem Inv.holdResult {s' : State τ} (inv : Inv s' held place L) {n : Nat} {r : Option Nat}
    (h : ∀ p, r = some p → Serves s'.heap place held n p) :
    Inv s' (r.toList ++ held) place L := by
  cases r with
  | none => exact inv
  | some p => exact inv.hold (h p rfl)

theorem Inv.memalign (inv : Inv s held place L) {a n : Nat} (h : n + a ≤ 2^64 - kPageSize)
    (ha : 1 ≤ a) (hroom : Room host s (largePages (n + a))) :
    ∃ place' L', Inv (Tcmalloc.largeAlloc host (n + a) s).2 held place' L' ∧
      ∀ p, (Tcmalloc.largeAlloc host (n + a) s).1 = some p →
        Serves (Tcmalloc.largeAlloc host (n + a) s).2.heap place' held n (alignPtr p a) := by
  obtain ⟨place', L', hinv, hb, -⟩ := inv.largeAlloc (by omega) h hroom
  refine ⟨place', L', hinv, fun p e => ?_⟩
  obtain ⟨g, b⟩ := hb p e
  have hcov := b.covers
  have hin := hinv.heap.inside g b.live
  have e8 : kPageSize = 8192 := rfl
  rw [e8] at hcov
  -- the aligned pointer is at most `a - 1` bytes into the span
  obtain ⟨d, hd, hp⟩ : ∃ d < a, alignPtr p a = p + d := by
    have hbase : p + a ≤ 2^64 := by
      rw [b.base, pageAddr, kPageShift, Nat.shiftLeft_eq]
      omega
    have hlt : p + a - 1 < 2^64 := by omega
    have h1 := maskOff_le (p + a - 1) (a - 1)
    have h2 := le_maskOff_add hlt (m := a - 1) (by omega)
    refine ⟨alignPtr p a - p, ?_, ?_⟩ <;> rw [alignPtr, Nat.mod_eq_of_lt hlt] <;> omega
  refine ⟨g, b.live, b.inUse, ?_, .inr ⟨b.sizeClass, by rw [e8]; omega, b.alone⟩⟩
  rw [hp, b.base, pageNumber_add]
  refine ⟨Nat.le_add_right _ _, Nat.add_lt_add_left ?_ _⟩
  rw [e8]
  omega

section threads
variable [DecidableEq τ]

theorem Inv.putCache (inv : Inv s held place L) {t : τ} {tc : ThreadCache}
    (h : CacheOk s.heap place tc) : Inv (s.putCache t tc) held place L := by
  refine ⟨inv.heap, inv.central, fun u uc e => ?_, inv.within, inv.alone⟩
  by_cases hu : u = t
  · subst hu
    have e' : some tc = some uc := by simpa [State.putCache] using e
    rw [← Option.some.inj e']
    exact h
  · refine inv.cached u uc ?_
    simpa [State.putCache, Function.update_of_ne hu] using e


theorem Inv.smallAlloc (inv : Inv s held place L) (t : τ) (hlt : c < kNumClasses)
    (hroom : Room host s 1) :
    ∃ place' L', Inv (smallAlloc host t c s).2 held place' L' ∧
      (∀ a, (smallAlloc host t c s).1 = some a → Owned (smallAlloc host t c s).2.heap place' c a) ∧
      Keeps s (smallAlloc host t c s).2 place place' := by
  cases ht : s.cache t with
  | none =>
    simp only [Tcmalloc.smallAlloc, ht]
    exact ⟨place, L, inv, nofun, .refl s place⟩
  | some tc =>
    simp only [Tcmalloc.smallAlloc, ht]
    obtain ⟨h1, h2, h3⟩ := inv.cacheAlloc hlt (inv.cached t tc ht)
    have hq : Quiet s ((Tcmalloc.cacheAlloc c tc s).2.2.putCache t (Tcmalloc.cacheAlloc c tc s).2.1) :=
      (Quiet.cacheAlloc s c tc).trans (.of_heap rfl rfl)
    have hput := h1.putCache (t := t) h2
    generalize Tcmalloc.cacheAlloc c tc s = r at h3 hq hput ⊢
    split
    · exact ⟨place, L, hput, h3, hq.keeps place⟩
    · -- the cache is empty: the central list, and then a new span
      have hone : Quiet s (Tcmalloc.takeOne c (r.2.2.putCache t r.2.1)).2 :=
        hq.trans (Quiet.removeRange _ c 1)
      obtain ⟨h4, h5⟩ := hput.takeOne hlt
      simp only [centralAlloc]
      split
      · exact ⟨place, L, h4, h5, hone.keeps place⟩
      · obtain ⟨place', L', h6, h7, hkeeps⟩ := h4.carveSpan hlt (hroom.quiet hone)
        exact ⟨place', L', h6, h7, (hone.keeps place).trans hkeeps⟩

theorem quiet_init (host : Host) (t : τ) (s : State τ) : Quiet s (initAllocator host t s) := by
  rw [initAllocator]
  split <;> exact .of_heap rfl rfl

theorem Inv.init (inv : Inv s held place L) (t : τ) :
    Inv (initAllocator host t s) held place L := by
  rw [initAllocator]
  split
  · exact inv
  · refine ⟨inv.heap, inv.central, fun u uc e => ?_, inv.within, inv.alone⟩
    dsimp only at e
    split at e
    · by_cases hu : u = t
      · subst hu
        rw [Function.update_self] at e
        rw [← Option.some.inj e]
        intro c _ a ha
        exact absurd ha List.not_mem_nil
      · rw [Function.update_of_ne hu] at e
        exact inv.cached u uc e
    · exact inv.cached u uc e

/-- The pages a request may need from `mmap`. -/
def pagesFor (n : Nat) : Nat := if n ≤ kMaxSize then 1 else largePages n

/-- `tc_malloc` keeps the invariant and serves the request, unless the page count wraps. -/
theorem Inv.tcMalloc (inv : Inv s held place L) (t : τ) {n : Nat}
    (hroom : Room host s (pagesFor n)) (hwrap : kMaxSize < n → n ≤ 2^64 - kPageSize) :
    ∃ place' L', Inv (tcMalloc host t n s).2 held place' L' ∧
      (∀ p, (tcMalloc host t n s).1 = some p → Serves (tcMalloc host t n s).2.heap place' held n p) ∧
      Keeps s (tcMalloc host t n s).2 place place' := by
  have hinit : Inv (initAllocator host t s) held place L := inv.init t
  have hroom' := hroom.quiet (quiet_init host t s)
  have hfirst := (quiet_init host t s).keeps place
  by_cases hn : kMaxSize < n
  · have h0 : ¬ n = 0 := by omega
    simp only [Tcmalloc.tcMalloc, if_neg h0, if_pos hn]
    rw [pagesFor, if_neg (by omega)] at hroom'
    obtain ⟨place', L', hinv, hb, hkeeps⟩ := hinit.largeAlloc (by omega) (hwrap hn) hroom'
    refine ⟨place', L', hinv, fun p e => ?_, hfirst.trans hkeeps⟩
    obtain ⟨g, b⟩ := hb p e
    refine ⟨g, b.live, b.inUse, ?_, .inr ⟨b.sizeClass, b.covers, b.alone⟩⟩
    have : kPageSize = 8192 := rfl
    have := b.covers
    rw [b.base, pageNumber_pageAddr]
    exact ⟨Nat.le_refl _, Nat.lt_add_of_pos_right (Nat.pos_of_ne_zero fun e => by
      rw [e] at this; omega)⟩
  · rw [pagesFor, if_pos (by omega)] at hroom'
    have hsize : ¬ kMaxSize < (if n = 0 then 1 else n) := by
      split
      · decide
      · exact hn
    have hclass : sizeToClass (if n = 0 then 1 else n) = sizeToClass n := by
      split
      · rename_i h0; subst h0; rfl
      · rfl
    simp only [Tcmalloc.tcMalloc, if_neg hsize, hclass]
    obtain ⟨place', L', hinv, ho, hkeeps⟩ := hinit.smallAlloc t (sizeToClass_lt (Nat.not_lt.mp hn)) hroom'
    refine ⟨place', L', hinv, fun p e => ?_, hfirst.trans hkeeps⟩
    obtain ⟨g, h1, h2, h3, h4⟩ := ho p e
    refine ⟨g, h1, h2, h4, .inl ⟨?_, Nat.not_lt.mp hn, fun hle => ?_⟩⟩
    · rw [h3]; exact sizeToClass_lt (Nat.not_lt.mp hn)
    · rw [h3]; exact le_classSize hle

theorem Inv.tcFree (inv : Inv s held place L) {t : τ} {p : Nat} (hp : p ∈ held)
    (hfit : FreeFits s t p) {held' : List Nat} (hsub : ∀ q ∈ held', q ∈ held)
    (hne : kNumClasses ≤ (s.heap.span (s.heap.get (pageNumber p))).sizeClass → p ∉ held') :
    Inv (tcFree t p s) held' place L := by
  obtain ⟨g, hl, hu, ha⟩ := inv.within p hp
  have hget := inv.heap.mapped g _ hl hu (Nat.ne_of_gt hl.1) ha
  have hg0 : ¬ g = 0 := Nat.ne_of_gt hl.1
  rw [FreeFits, hget] at hfit
  rw [hget] at hne
  simp only [Tcmalloc.tcFree, hget, if_neg hg0]
  by_cases hk : kNumClasses ≤ (s.heap.span g).sizeClass
  · rw [if_pos hk]
    exact inv.largeFree hp hl hu ha hk (fun q hq => ⟨hsub q hq, fun e => hne hk (e ▸ hq)⟩)
  · rw [if_neg hk]
    obtain ⟨tc, htc⟩ := Option.isSome_iff_exists.mp (hfit (by omega))
    simp only [htc]
    obtain ⟨h1, h2⟩ := inv.cacheFree (inv.cached t tc htc) ⟨g, hl, hu, rfl, ha⟩
    exact (h1.putCache h2).forget hsub

end threads

end MyMalloc.Tcmalloc
