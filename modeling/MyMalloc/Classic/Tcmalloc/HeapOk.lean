import MyMalloc.Classic.Tcmalloc.Malloc

/- What the page heap does keep, as long as no span is freed to it.

   `free_span` is reached only when a thread without a cache frees a small
   object. Up to then spans are only cut from fresh regions and from free
   lists, and the page map is right for every span in use, provided that the
   entries of a new region do not collide with those of the spans there are:
   the map has 2^19 entries, so pages 4 GiB apart share one. `HeapOk` is that
   invariant, and `HeapOk.allocSpan` says what `alloc_span` does. -/
namespace MyMalloc.Tcmalloc

open PageHeap

/-- A span object that exists. -/
def PageHeap.Live (h : PageHeap) (g : Nat) : Prop := 1 ≤ g ∧ g ≤ h.spans ∧ g ∉ h.deleted

/-- Every existing span but `taken` is on the free list of its length, or in use and mapped;
no two of them share an entry of the page map. -/
structure HeapOk (h : PageHeap) (place : Nat → Option Nat) (L : Nat → List Nat) (taken : Nat) :
    Prop where
  shelved : Shelved 0 (fun g => (h.span g).next) h.free place L
  listed : ∀ g k, place g = some k →
    h.Live g ∧ (h.span g).length = k ∧ 1 ≤ k ∧ k ≤ kMaxPages
  apart : ∀ g g' pn pn', h.Live g → h.Live g' → g ≠ g' → (h.span g).Has pn →
    (h.span g').Has pn' → slot pn ≠ slot pn'
  mapped : ∀ g pn, h.Live g → place g = none → g ≠ taken → (h.span g).Has pn → h.get pn = g
  inside : ∀ g, h.Live g → (h.span g).start + (h.span g).length < 2^51
  old : ∀ g ∈ h.deleted, g ≤ h.spans

/-- The part of a span that the free lists do not touch. -/
def Span.body (s : Span) : Nat × Nat × Nat × List Nat :=
  (s.start, s.length, s.sizeClass, s.freelist)

section
variable {h h' : PageHeap} {place : Nat → Option Nat} {L : Nat → List Nat} {taken : Nat}

theorem HeapOk.congr (ok : HeapOk h place L taken)
    (hb : ∀ g, (h'.span g).start = (h.span g).start ∧ (h'.span g).length = (h.span g).length)
    (hn : ∀ g, (h'.span g).next = (h.span g).next) (hf : h'.free = h.free)
    (hs : h'.spans = h.spans) (hd : h'.deleted = h.deleted) (hp : h'.pagemap = h.pagemap) :
    HeapOk h' place L taken := by
  have hlive : ∀ g, h'.Live g ↔ h.Live g := fun g => by rw [Live, Live, hs, hd]
  have hhas : ∀ g pn, (h'.span g).Has pn ↔ (h.span g).Has pn := fun g pn => by
    rw [Span.Has, Span.Has, (hb g).1, (hb g).2]
  refine ⟨?_, fun g k e => ?_, fun g g' pn pn' l l' e a a' => ?_, fun g pn l e ne a => ?_,
    fun g l => ?_, ?_⟩
  · rw [hf, show (fun g => (h'.span g).next) = fun g => (h.span g).next from funext hn]
    exact ok.shelved
  · obtain ⟨h1, h2, h3⟩ := ok.listed g k e
    exact ⟨(hlive g).mpr h1, (hb g).2.trans h2, h3⟩
  · exact ok.apart g g' pn pn' ((hlive g).mp l) ((hlive g').mp l') e ((hhas g pn).mp a)
      ((hhas g' pn').mp a')
  · show h'.pagemap (slot pn) = g
    rw [hp]
    exact ok.mapped g pn ((hlive g).mp l) e ne ((hhas g pn).mp a)
  · rw [(hb g).1, (hb g).2]
    exact ok.inside g ((hlive g).mp l)
  · rw [hd, hs]; exact ok.old

theorem modify_span_of_ne {g x : Nat} {f : Span → Span} (e : x ≠ g) :
    (h.modify g f).span x = h.span x := Function.update_of_ne e _ _

theorem modify_span_self {g : Nat} {f : Span → Span} : (h.modify g f).span g = f (h.span g) :=
  Function.update_self ..

theorem HeapOk.modify (ok : HeapOk h place L taken) {g : Nat} {f : Span → Span}
    (h1 : (f (h.span g)).start = (h.span g).start)
    (h2 : (f (h.span g)).length = (h.span g).length)
    (h3 : (f (h.span g)).next = (h.span g).next) : HeapOk (h.modify g f) place L taken := by
  have hcase : ∀ x, ((h.modify g f).span x).start = (h.span x).start ∧
      ((h.modify g f).span x).length = (h.span x).length ∧ ((h.modify g f).span x).next = (h.span x).next := by
    intro x
    by_cases e : x = g
    · subst e; rw [modify_span_self]; exact ⟨h1, h2, h3⟩
    · rw [modify_span_of_ne e]; exact ⟨rfl, rfl, rfl⟩
  exact ok.congr (fun x => ⟨(hcase x).1, (hcase x).2.1⟩) (fun x => (hcase x).2.2) rfl rfl rfl rfl

theorem modify_body {g : Nat} {f : Span → Span} (hf : (f (h.span g)).body = (h.span g).body)
    (x : Nat) : ((h.modify g f).span x).body = (h.span x).body := by
  by_cases e : x = g
  · subst e; rw [modify_span_self, hf]
  · rw [modify_span_of_ne e]

/-! ## The page map -/

theorem slot_eq_iff {p q : Nat} : slot p = slot q ↔ p % 524288 = q % 524288 := by
  have e1 : ∀ x, (x >>> 10) &&& 511 = x / 1024 % 512 := fun x => by
    rw [Nat.shiftRight_eq_div_pow, show (511 : Nat) = 2^9 - 1 from rfl, Nat.and_two_pow_sub_one_eq_mod]
  have e2 : ∀ x, x &&& 1023 = x % 1024 := fun x => by
    rw [show (1023 : Nat) = 2^10 - 1 from rfl, Nat.and_two_pow_sub_one_eq_mod]
  simp only [slot, e1, e2, Prod.mk.injEq]
  omega

/-- The pages of one span of at most `kMaxPages` have entries of their own. -/
theorem slot_ne {p q : Nat} (h : p < q) (hq : q < p + 524288) : slot p ≠ slot q := by
  rw [Ne, slot_eq_iff]
  omega

theorem mapPages_of_mem {start g n pn : Nat} {pm : Nat × Nat → Nat} (h : start ≤ pn)
    (hlt : pn < start + n) : mapPages start g n pm (slot pn) = g := by
  induction n with
  | zero => omega
  | succ n ih =>
    rw [mapPages]
    by_cases e : slot pn = slot (start + n)
    · rw [e, Function.update_self]
    · rw [Function.update_of_ne e]
      refine ih ?_
      have : pn ≠ start + n := fun e' => e (by rw [e'])
      omega

theorem mapPages_of_apart {start g n : Nat} {pm : Nat × Nat → Nat} {x : Nat × Nat}
    (h : ∀ i < n, x ≠ slot (start + i)) : mapPages start g n pm x = pm x := by
  induction n with
  | zero => rfl
  | succ n ih =>
    rw [mapPages, Function.update_of_ne (h n (by omega))]
    exact ih (fun i hi => h i (by omega))

/-! ## The steps of alloc_span -/

theorem HeapOk.mapSpan (ok : HeapOk h place L taken) (hl : h.Live taken) :
    HeapOk (h.mapSpan taken) place L 0 := by
  refine ⟨ok.shelved, ok.listed, ok.apart, fun g pn l e _ a => ?_, ok.inside, ok.old⟩
  show mapPages (h.span taken).start taken (h.span taken).length h.pagemap (slot pn) = g
  by_cases hg : g = taken
  · subst hg
    exact mapPages_of_mem a.1 a.2
  · rw [mapPages_of_apart]
    · exact ok.mapped g pn l e hg a
    · intro i hi
      exact ok.apart g taken pn _ l hl hg a ⟨Nat.le_add_right _ _, by omega⟩

theorem HeapOk.popFree (ok : HeapOk h place L 0) {i : Nat} (hi : h.free i ≠ 0) :
    ∃ l, L i = h.free i :: l ∧
      HeapOk (h.popFree i) (Function.update place (h.free i) none) (Function.update L i l)
        (h.free i) := by
  obtain ⟨l, hl, -⟩ := (ok.shelved.chain i).exists_cons hi
  refine ⟨l, hl, ?_⟩
  have base : HeapOk { h with free := Function.update h.free i (h.span (h.free i)).next }
      (Function.update place (h.free i) none) (Function.update L i l) (h.free i) := by
    refine ⟨ok.shelved.pop hl, fun g k e => ?_, ok.apart, fun g pn lg e ne a => ?_, ok.inside,
      ok.old⟩
    · by_cases hg : g = h.free i
      · subst hg; simp at e
      · rw [Function.update_of_ne hg] at e; exact ok.listed g k e
    · rw [Function.update_of_ne ne] at e
      exact ok.mapped g pn lg e (Nat.ne_of_gt lg.1) a
  simp only [PageHeap.popFree]
  split
  · exact base
  · exact base.modify rfl rfl rfl

theorem popFree_body (i x : Nat) : ((h.popFree i).span x).body = (h.span x).body := by
  simp only [PageHeap.popFree]
  split
  · rfl
  · exact modify_body (h := { h with free := _ }) rfl x

theorem popFree_spans (i : Nat) : (h.popFree i).spans = h.spans ∧
    (h.popFree i).deleted = h.deleted := by
  simp only [PageHeap.popFree]
  split <;> exact ⟨rfl, rfl⟩

/-- What putting a span on a free list changes. -/
structure Pushed (h h' : PageHeap) (g : Nat) : Prop where
  body : ∀ x, (h'.span x).body = (h.span x).body
  next : (fun x => (h'.span x).next) =
    Function.update (fun x => (h.span x).next) g (h.free (h.span g).length)
  free : h'.free = Function.update h.free (h.span g).length g
  spans : h'.spans = h.spans
  deleted : h'.deleted = h.deleted
  pagemap : h'.pagemap = h.pagemap

theorem modify_next {g : Nat} {f : Span → Span} :
    (fun x => ((h.modify g f).span x).next) =
      Function.update (fun x => (h.span x).next) g (f (h.span g)).next := by
  funext x
  by_cases e : x = g
  · subst e; rw [modify_span_self, Function.update_self]
  · rw [modify_span_of_ne e, Function.update_of_ne e]

theorem pushFree_spec {g : Nat} (hk : (h.span g).length ≤ kMaxPages) :
    Pushed h (h.pushFree g) g := by
  have hprev : ∀ (k : PageHeap) (y v : Nat),
      (fun x => ((k.modify y ({ · with prev := v })).span x).next) = fun x => (k.span x).next := by
    intro k y v
    rw [modify_next]
    exact Function.update_eq_self _ _
  have hbody : ∀ (k : PageHeap) (y v x : Nat),
      ((k.modify y ({ · with prev := v })).span x).body = (k.span x).body := fun k y v x =>
    modify_body rfl x
  simp only [PageHeap.pushFree, if_pos hk]
  split
  all_goals refine ⟨fun x => ?_, ?_, rfl, rfl, rfl, rfl⟩
  · exact (hbody _ _ _ x).trans (modify_body rfl x)
  · exact (hprev _ _ _).trans modify_next
  · exact (hbody _ _ _ x).trans ((hbody _ _ _ x).trans (modify_body rfl x))
  · exact (hprev _ _ _).trans ((hprev _ _ _).trans modify_next)

/-- The remainder that `alloc_span` cuts off. -/
def remainderOf (n : Nat) (s : Span) : Span :=
  { zeroSpan with
    start := s.start + n, length := s.length - n, state := .onNormalFreelist,
    sizeClass := kNumClasses }

/-- What a split changes: the span is cut to `n` pages, and the rest is a new span on the free
list of its length. -/
structure Cut (h h' : PageHeap) (n g : Nat) : Prop where
  old : ∀ x, x ≠ h.spans + 1 → x ≠ g → (h'.span x).body = (h.span x).body
  self : (h'.span g).body = ((h.span g).start, n, (h.span g).sizeClass, (h.span g).freelist)
  rest : (h'.span (h.spans + 1)).body = (remainderOf n (h.span g)).body
  next : (fun x => (h'.span x).next) =
    Function.update (fun x => (h.span x).next) (h.spans + 1) (h.free ((h.span g).length - n))
  free : h'.free = Function.update h.free ((h.span g).length - n) (h.spans + 1)
  spans : h'.spans = h.spans + 1
  deleted : h'.deleted = h.deleted
  pagemap : h'.pagemap = h.pagemap

theorem split_spec {n g : Nat} (hn : n < (h.span g).length)
    (hk : (h.span g).length ≤ kMaxPages) (hg : g ≤ h.spans) : Cut h (h.split n g) n g := by
  have hne : g ≠ h.spans + 1 := by omega
  have hr : ((h.new (remainderOf n (h.span g))).1.span (h.spans + 1)) = remainderOf n (h.span g) :=
    Function.update_self ..
  have hx : ∀ x, x ≠ h.spans + 1 →
      (h.new (remainderOf n (h.span g))).1.span x = h.span x := fun x e =>
    Function.update_of_ne e _ _
  have hlen : ((h.new (remainderOf n (h.span g))).1.span (h.spans + 1)).length =
      (h.span g).length - n := by rw [hr]; rfl
  have p := pushFree_spec (h := (h.new (remainderOf n (h.span g))).1) (g := h.spans + 1)
    (by rw [hlen]; omega)
  have e : h.split n g = ((h.new (remainderOf n (h.span g))).1.pushFree (h.spans + 1)).modify g
      ({ · with length := n }) := by
    simp only [PageHeap.split, if_pos hn]
    rfl
  rw [e]
  have hself := p.body g
  rw [hx g hne] at hself
  simp only [Span.body, Prod.mk.injEq] at hself
  refine ⟨fun x h1 h2 => ?_, ?_, ?_, ?_, ?_, ?_, ?_, ?_⟩
  · rw [modify_span_of_ne h2, p.body x, hx x h1]
  · rw [modify_span_self]
    simp [Span.body, hself]
  · rw [modify_span_of_ne hne.symm, p.body, hr]
  · rw [modify_next]
    show Function.update (fun x => (((h.new _).1.pushFree _).span x).next) g
      (((h.new _).1.pushFree _).span g).next = _
    rw [show ∀ f : Nat → Nat, Function.update f g (f g) = f from
      fun f => Function.update_eq_self g f]
    rw [p.next, hlen]
    funext x
    by_cases ex : x = h.spans + 1
    · subst ex; rw [Function.update_self, Function.update_self]; rfl
    · rw [Function.update_of_ne ex, Function.update_of_ne ex, hx x ex]
  · show ((h.new _).1.pushFree _).free = _
    rw [p.free, hlen]; rfl
  · exact p.spans
  · exact p.deleted
  · exact p.pagemap

theorem body_range {s s' : Span} (e : s'.body = s.body) : s'.start = s.start ∧ s'.length = s.length := by
  simp only [Span.body, Prod.mk.injEq] at e
  exact ⟨e.1, e.2.1⟩

theorem body_has {s s' : Span} (e : s'.body = s.body) (pn : Nat) : s'.Has pn ↔ s.Has pn := by
  rw [Span.Has, Span.Has, (body_range e).1, (body_range e).2]

theorem Cut.self_range {n g : Nat} (c : Cut h h' n g) :
    (h'.span g).start = (h.span g).start ∧ (h'.span g).length = n :=
  body_range (s := { h.span g with length := n }) c.self

theorem HeapOk.notListed (ok : HeapOk h place L taken) {g : Nat} (hg : ¬ h.Live g) :
    place g = none := by
  cases e : place g with
  | none => rfl
  | some k => exact absurd (ok.listed g k e).1 hg

section newSpan
variable (hs : h'.spans = h.spans + 1) (hd : h'.deleted = h.deleted)
include hs hd

theorem live_of_ne {x : Nat} (hx : x ≠ h.spans + 1) : h'.Live x ↔ h.Live x := by
  have : x ≤ h.spans + 1 ↔ x ≤ h.spans := by omega
  rw [Live, Live, hs, hd, this]

theorem HeapOk.live_new (ok : HeapOk h place L taken) : h'.Live (h.spans + 1) := by
  refine ⟨Nat.le_add_left 1 _, hs.ge, fun hm => ?_⟩
  have := ok.old _ (hd ▸ hm)
  omega

/-- Spans that do not grow, and a new one that shares no entry with them. -/
theorem HeapOk.apart_new (ok : HeapOk h place L taken)
    (hold : ∀ x, x ≠ h.spans + 1 → ∀ pn, (h'.span x).Has pn → (h.span x).Has pn)
    (hcross : ∀ x pn pn', x ≠ h.spans + 1 → h.Live x → (h'.span x).Has pn →
      (h'.span (h.spans + 1)).Has pn' → slot pn ≠ slot pn') (g g' pn pn' : Nat) (lg : h'.Live g) (lg' : h'.Live g')
    (ne : g ≠ g') (a : (h'.span g).Has pn) (a' : (h'.span g').Has pn') : slot pn ≠ slot pn' := by
  by_cases hg : g = h.spans + 1
  · have hg' : g' ≠ h.spans + 1 := fun e => ne (hg.trans e.symm)
    exact (hcross g' pn' pn hg' ((live_of_ne hs hd hg').mp lg') a' (hg ▸ a)).symm
  · have lg := (live_of_ne hs hd hg).mp lg
    by_cases hg' : g' = h.spans + 1
    · exact hcross g pn pn' hg lg a (hg' ▸ a')
    · exact ok.apart g g' pn pn' lg ((live_of_ne hs hd hg').mp lg') ne (hold g hg pn a) (hold g' hg' pn' a')

end newSpan

/-- Cutting the taken span: its pages are shared out between it and the remainder. -/
theorem HeapOk.split (ok : HeapOk h place L taken) {n : Nat} (hl : h.Live taken)
    (hp : place taken = none) (hn : n < (h.span taken).length)
    (hk : (h.span taken).length ≤ kMaxPages) :
    HeapOk (h.split n taken)
      (Function.update place (h.spans + 1) (some ((h.span taken).length - n)))
      (Function.update L ((h.span taken).length - n)
        ((h.spans + 1) :: L ((h.span taken).length - n))) taken := by
  have c := split_spec hn hk hl.2.1
  have hmax : kMaxPages = 256 := rfl
  have hfresh : ¬ h.Live (h.spans + 1) := fun a => absurd a.2.1 (by omega)
  have hne : taken ≠ h.spans + 1 := fun e => absurd hl.2.1 (by omega)
  have hlive : ∀ x, x ≠ h.spans + 1 → ((h.split n taken).Live x ↔ h.Live x) := fun _ => live_of_ne c.spans c.deleted
  obtain ⟨hstart, hlen⟩ := c.self_range
  obtain ⟨hstart', hlen'⟩ := body_range c.rest
  dsimp only [remainderOf] at hstart' hlen'
  -- every span now lies within one of the spans there were, the two parts in order
  have hself : ∀ pn, ((h.split n taken).span taken).Has pn → (h.span taken).Has pn ∧
      pn < (h.span taken).start + n := by
    intro pn a
    rw [Span.Has, hstart, hlen] at a
    exact ⟨⟨a.1, by omega⟩, a.2⟩
  have hrest : ∀ pn, ((h.split n taken).span (h.spans + 1)).Has pn → (h.span taken).Has pn ∧
      (h.span taken).start + n ≤ pn := by
    intro pn a
    rw [Span.Has, hstart', hlen'] at a
    exact ⟨⟨by omega, by omega⟩, a.1⟩
  have hold : ∀ x, x ≠ h.spans + 1 → ∀ pn, ((h.split n taken).span x).Has pn →
      (h.span x).Has pn := by
    intro x hx pn a
    by_cases e : x = taken
    · subst e; exact (hself pn a).1
    · exact (body_has (c.old x hx e) pn).mp a
  have hcross : ∀ x pn pn', x ≠ h.spans + 1 → h.Live x →
      ((h.split n taken).span x).Has pn → ((h.split n taken).span (h.spans + 1)).Has pn' →
      slot pn ≠ slot pn' := by
    intro x pn pn' hx lx a a'
    obtain ⟨hin, hge⟩ := hrest pn' a'
    by_cases e : x = taken
    · subst e
      obtain ⟨hin2, hlt⟩ := hself pn a
      have h1 := hin.2
      have h2 := hin2.1
      exact slot_ne (by omega) (by omega)
    · exact ok.apart x taken pn pn' lx hl e (hold x hx pn a) hin
  refine ⟨?_, fun g k e => ?_, ok.apart_new c.spans c.deleted hold hcross, fun g pn lg e ne a => ?_,
    fun g lg => ?_, ?_⟩
  · rw [c.next, c.free]
    exact ok.shelved.push (ok.notListed hfresh) (by omega)
  · by_cases hg : g = h.spans + 1
    · subst hg
      rw [Function.update_self] at e
      obtain rfl := Option.some.inj e
      exact ⟨ok.live_new c.spans c.deleted, hlen', by omega, by omega⟩
    · rw [Function.update_of_ne hg] at e
      obtain ⟨h1, h2, h3⟩ := ok.listed g k e
      have hgt : g ≠ taken := fun e' => by rw [e', hp] at e; cases e
      exact ⟨(hlive g hg).mpr h1, (body_range (c.old g hg hgt)).2.trans h2, h3⟩
  · have hg : g ≠ h.spans + 1 := fun e' => by
      rw [e', Function.update_self] at e; cases e
    rw [Function.update_of_ne hg] at e
    show (h.split n taken).pagemap (slot pn) = g
    rw [c.pagemap]
    exact ok.mapped g pn ((hlive g hg).mp lg) e ne (hold g hg pn a)
  · have ht := ok.inside taken hl
    by_cases hg : g = h.spans + 1
    · rw [hg, hstart', hlen']
      omega
    · by_cases hgt : g = taken
      · rw [hgt, hstart, hlen]
        omega
      · obtain ⟨e1, e2⟩ := body_range (c.old g hg hgt)
        rw [e1, e2]
        exact ok.inside g ((hlive g hg).mp lg)
  · rw [c.deleted, c.spans]
    exact fun g hg => Nat.le_succ_of_le (ok.old g hg)

/-- A region of pages in the address space that shares no entry of the page map with a span
there is. -/
structure RegionFits (h : PageHeap) (start len : Nat) : Prop where
  inside : start + len < 2^51
  apart : ∀ g, h.Live g → ∀ pn, (h.span g).Has pn → ∀ i < len, slot (start + i) ≠ slot pn

theorem HeapOk.addRegion (ok : HeapOk h place L 0) {n raw : Nat}
    (hfit : RegionFits h (pageNumber raw) n) :
    HeapOk (h.addRegion n (some raw)).1 place L (h.spans + 1) ∧
      (h.addRegion n (some raw)).1.Live (h.spans + 1) ∧ place (h.spans + 1) = none := by
  have hfresh : ¬ h.Live (h.spans + 1) := fun a => absurd a.2.1 (by omega)
  have hx : ∀ x, x ≠ h.spans + 1 → (h.addRegion n (some raw)).1.span x = h.span x := fun x e =>
    Function.update_of_ne e _ _
  have hr : (h.addRegion n (some raw)).1.span (h.spans + 1) =
      { zeroSpan with start := pageNumber raw, length := n } := Function.update_self ..
  have hspans : (h.addRegion n (some raw)).1.spans = h.spans + 1 := rfl
  have hlive : ∀ x, x ≠ h.spans + 1 → ((h.addRegion n (some raw)).1.Live x ↔ h.Live x) := fun _ => live_of_ne hspans rfl
  have hplace := ok.notListed hfresh
  have hregion : ∀ x pn pn', x ≠ h.spans + 1 → h.Live x → ((h.addRegion n (some raw)).1.span x).Has pn →
      ((h.addRegion n (some raw)).1.span (h.spans + 1)).Has pn' → slot pn ≠ slot pn' := by
    intro x pn pn' ne lx a a'
    rw [hx x ne] at a
    rw [hr] at a'
    have h1 : pageNumber raw ≤ pn' := a'.1
    have h2 : pn' < pageNumber raw + n := a'.2
    have := hfit.apart x lx pn a (pn' - pageNumber raw) (by omega)
    rw [Nat.add_sub_cancel' h1] at this
    exact this.symm
  refine ⟨⟨?_, fun g k e => ?_, ok.apart_new hspans rfl (fun x ne pn a => hx x ne ▸ a) hregion,
    fun g pn lg e ne a => ?_, fun g lg => ?_, ?_⟩, ok.live_new hspans rfl, hplace⟩
  · -- the new span is in no list, so its null link disturbs none
    have hnext : (fun g => ((h.addRegion n (some raw)).1.span g).next) =
        Function.update (fun g => (h.span g).next) (h.spans + 1) 0 := by
      funext g
      by_cases e : g = h.spans + 1
      · subst e; rw [hr, Function.update_self]; rfl
      · rw [hx g e, Function.update_of_ne e]
    rw [hnext]
    exact ok.shelved.setNext hplace
  · have hg : g ≠ h.spans + 1 := fun e' => by rw [e', hplace] at e; cases e
    obtain ⟨h1, h2, h3⟩ := ok.listed g k e
    exact ⟨(hlive g hg).mpr h1, by rw [hx g hg]; exact h2, h3⟩
  · rw [hx g ne] at a
    have lg' := (hlive g ne).mp lg
    show mapPages ((h.addRegion n (some raw)).1.span (h.spans + 1)).start (h.spans + 1)
      ((h.addRegion n (some raw)).1.span (h.spans + 1)).length h.pagemap (slot pn) = g
    rw [hr]
    rw [mapPages_of_apart (fun i hi => (hfit.apart g lg' pn a i hi).symm)]
    exact ok.mapped g pn lg' e (Nat.ne_of_gt lg'.1) a
  · by_cases hg : g = h.spans + 1
    · subst hg
      rw [hr]
      exact hfit.inside
    · rw [hx g hg]
      exact ok.inside g ((hlive g hg).mp lg)
  · exact fun g hg => Nat.le_succ_of_le (ok.old g hg)

theorem findFree_some {n i : Nat} (hf : h.findFree n = some i) :
    h.free i ≠ 0 ∧ n ≤ i ∧ i ≤ kMaxPages := by
  have hmem := List.mem_range'_1.mp (List.mem_of_find?_eq_some hf)
  have hfree : h.free i ≠ 0 := by simpa using List.find?_some hf
  exact ⟨hfree, hmem.1, by omega⟩

/-- Span `g` was handed out, with everything in use left as it was. -/
structure Handed (h h' : PageHeap) (place place' : Nat → Option Nat) (g : Nat) : Prop where
  live : h'.Live g
  inUse : place' g = none
  fresh : ¬ (h.Live g ∧ place g = none)
  keep : ∀ x, h.Live x → place x = none →
    h'.Live x ∧ place' x = none ∧ (h'.span x).body = (h.span x).body

theorem HeapOk.takeBest (ok : HeapOk h place L 0) {n : Nat} {answer : Option Nat}
    (hroom : ∀ raw, answer = some raw →
      RegionFits h (pageNumber raw) (if kMaxPages < n then n else kMaxPages)) :
    h.takeBest n answer = (h, 0) ∨
    ∃ place' L', HeapOk (h.takeBest n answer).1 place' L' (h.takeBest n answer).2 ∧
      Handed h (h.takeBest n answer).1 place place' (h.takeBest n answer).2 ∧
      n ≤ ((h.takeBest n answer).1.span (h.takeBest n answer).2).length ∧
      (((h.takeBest n answer).1.span (h.takeBest n answer).2).length ≤ kMaxPages ∨
        ((h.takeBest n answer).1.span (h.takeBest n answer).2).length = n) := by
  rw [PageHeap.takeBest]
  cases hf : h.findFree n with
  | some i =>
    right
    dsimp only
    obtain ⟨hfree, hni, himax⟩ := findFree_some hf
    obtain ⟨l, hl, hok⟩ := ok.popFree hfree
    have hplace : place (h.free i) = some i := (ok.shelved.mem i _).mp (by rw [hl]; simp)
    obtain ⟨hlive, hlen, -⟩ := ok.listed _ _ hplace
    have hsame : ∀ x, (h.popFree i).Live x ↔ h.Live x := fun x => by
      rw [Live, Live, (popFree_spans i).1, (popFree_spans i).2]
    refine ⟨_, _, hok, ⟨(hsame _).mpr hlive, Function.update_self .., ?_, fun x lx ex => ?_⟩, ?_, ?_⟩
    · rintro ⟨-, e⟩
      rw [hplace] at e
      cases e
    · have hne : x ≠ h.free i := fun e => by rw [e, hplace] at ex; cases ex
      exact ⟨(hsame x).mpr lx, by rw [Function.update_of_ne hne]; exact ex, popFree_body i x⟩
    · rw [(body_range (popFree_body i _)).2, hlen]; exact hni
    · left; rw [(body_range (popFree_body i _)).2, hlen]; exact himax
  | none =>
    dsimp only
    rw [growHeap]
    cases ha : mmapAnswer ((if kMaxPages < n then n else kMaxPages) * kPageSize % 2^64) answer with
    | none => exact .inl rfl
    | some raw =>
      right
      obtain ⟨hok, hlive, hp⟩ := ok.addRegion (hroom raw (mmapAnswer_eq_some ha).2)
      have hlen : ((h.addRegion (if kMaxPages < n then n else kMaxPages) (some raw)).1.span
          (h.spans + 1)).length = if kMaxPages < n then n else kMaxPages := by
        show (Function.update h.span (h.spans + 1) _ (h.spans + 1)).length = _
        rw [Function.update_self]
      refine ⟨place, L, hok, ⟨hlive, hp, ?_, fun x lx ex => ?_⟩, ?_, ?_⟩
      · exact fun a => absurd a.1.2.1 (Nat.not_succ_le_self _)
      · have hne : x ≠ h.spans + 1 := fun e => absurd lx.2.1 (by omega)
        refine ⟨⟨lx.1, Nat.le_succ_of_le lx.2.1, lx.2.2⟩, ex, ?_⟩
        show (Function.update h.span (h.spans + 1) _ x).body = _
        rw [Function.update_of_ne hne]
      · show n ≤ ((h.addRegion _ (some raw)).1.span (h.spans + 1)).length
        rw [hlen]
        split <;> omega
      · show ((h.addRegion _ (some raw)).1.span (h.spans + 1)).length ≤ kMaxPages ∨
          ((h.addRegion _ (some raw)).1.span (h.spans + 1)).length = n
        rw [hlen]
        split
        · exact .inr rfl
        · exact .inl (Nat.le_refl _)

theorem HeapOk.trim (ok : HeapOk h place L taken) {n : Nat} (hl : h.Live taken)
    (hp : place taken = none) (hn : n ≤ (h.span taken).length)
    (hk : (h.span taken).length ≤ kMaxPages ∨ (h.span taken).length = n) :
    ∃ place' L', HeapOk (h.split n taken) place' L' taken ∧ (h.split n taken).Live taken ∧
      place' taken = none ∧ ((h.split n taken).span taken).length = n ∧
      ∀ x, h.Live x → place x = none → x ≠ taken → (h.split n taken).Live x ∧
        place' x = none ∧ ((h.split n taken).span x).body = (h.span x).body := by
  by_cases hlt : n < (h.span taken).length
  · have hk' : (h.span taken).length ≤ kMaxPages := by omega
    have c := split_spec hlt hk' hl.2.1
    have hne : ∀ x, h.Live x → x ≠ h.spans + 1 := fun x lx e => absurd lx.2.1 (by omega)
    have hlive : ∀ x, h.Live x → (h.split n taken).Live x := fun x lx =>
      ⟨lx.1, by rw [c.spans]; exact Nat.le_succ_of_le lx.2.1, by rw [c.deleted]; exact lx.2.2⟩
    refine ⟨_, _, ok.split hl hp hlt hk', hlive _ hl, ?_, c.self_range.2, fun x lx ex ne => ⟨hlive x lx, ?_, ?_⟩⟩
    · rw [Function.update_of_ne (hne _ hl)]; exact hp
    · rw [Function.update_of_ne (hne x lx)]; exact ex
    · exact c.old x (hne x lx) ne
  · have e : h.split n taken = h := by
      simp only [PageHeap.split]
      rw [if_neg hlt]
    rw [e]
    exact ⟨place, L, ok, hl, hp, by omega, fun x lx ex _ => ⟨lx, ex, rfl⟩⟩

/-- `alloc_span` hands out a span of `n` pages, mapped and in nobody else's use, or fails and
changes nothing. -/
theorem HeapOk.allocSpan (ok : HeapOk h place L 0) {n : Nat} {answer : Option Nat}
    (hroom : ∀ raw, answer = some raw →
      RegionFits h (pageNumber raw) (if kMaxPages < n then n else kMaxPages)) :
    h.allocSpan n answer = (h, 0) ∨
    ∃ place' L', HeapOk (h.allocSpan n answer).1 place' L' 0 ∧ (h.allocSpan n answer).2 ≠ 0 ∧
      Handed h (h.allocSpan n answer).1 place place' (h.allocSpan n answer).2 ∧
      ((h.allocSpan n answer).1.span (h.allocSpan n answer).2).length = n := by
  rcases ok.takeBest hroom with e | ⟨place₁, L₁, hok, hh, hn, hk⟩
  · left
    simp [PageHeap.allocSpan, e]
  right
  generalize hb : h.takeBest n answer = b at hok hh hn hk
  obtain ⟨h₁, g⟩ := b
  have hg0 : g ≠ 0 := Nat.ne_of_gt hh.live.1
  obtain ⟨place₂, L₂, hok₂, hlive₂, hp₂, hlen₂, hkeep⟩ := hok.trim hh.live hh.inUse hn hk
  have hmod : HeapOk ((h₁.split n g).modify g
      ({ · with state := .inUse, sizeClass := kNumClasses })) place₂ L₂ g :=
    hok₂.modify rfl rfl rfl
  have hfin : HeapOk (h₁.finishAlloc n g) place₂ L₂ 0 :=
    (hmod.mapSpan hlive₂).congr (fun _ => ⟨rfl, rfl⟩) (fun _ => rfl) rfl rfl rfl rfl
  have hspan : ∀ x, (h₁.finishAlloc n g).span x = ((h₁.split n g).modify g
      ({ · with state := .inUse, sizeClass := kNumClasses })).span x := fun _ => rfl
  have e : h.allocSpan n answer = (h₁.finishAlloc n g, g) := by
    simp only [PageHeap.allocSpan, hb]
    rw [if_neg hg0]
  rw [e]
  refine ⟨place₂, L₂, hfin, hg0, ⟨hlive₂, hp₂, hh.fresh, fun x lx ex => ?_⟩, ?_⟩
  · obtain ⟨l1, e1, b1⟩ := hh.keep x lx ex
    have hne : x ≠ g := fun e' => hh.fresh (e' ▸ ⟨lx, ex⟩)
    obtain ⟨l2, e2, b2⟩ := hkeep x l1 e1 hne
    refine ⟨l2, e2, ?_⟩
    rw [hspan, modify_span_of_ne hne, b2, b1]
  · rw [hspan, modify_span_self]
    exact hlen₂

end

end MyMalloc.Tcmalloc
