import MyMalloc.Classic.Tcmalloc.PageHeap

/- The central free lists (`central_freelist.cpp`).

   A central list keeps the spans of one size class in two lists, those with
   objects left and those without. Both lists are Lean lists of span addresses
   here: only these functions touch them, at the front, and every list
   operation of the source is a push or an unlink of the first span. Objects
   are their addresses; a chain of objects is a list.

   `remove_range` is exact: it delivers `min N` of what there is and counts
   every object it hands out in the refcount of its span. `insert_range` is
   not: it walks the chain and decrements a refcount per object, but no object
   goes back to any free list. So the number of deliverable objects never
   grows (`deliverable_insertRange`), and a run conserves objects exactly when
   nothing is ever returned (`conserves_iff_no_return`). -/
namespace MyMalloc.Tcmalloc

structure Central where
  nonempty : List Nat
  empty : List Nat
  deriving DecidableEq, Repr

/-- The spans and one central list over them. -/
structure Lists where
  span : Nat → Span
  central : Central

/-- The loop of `remove_range` over the spans of `nonempty`: take up to `want` objects from
each, and move a span without objects to `empty`. -/
def removeLoop (want : Nat) : List Nat → List Nat → (Nat → Span) → List Nat × Lists
  | [], empty, sp => ([], ⟨sp, ⟨[], empty⟩⟩)
  | g :: rest, empty, sp =>
    if want = 0 then ([], ⟨sp, ⟨g :: rest, empty⟩⟩)
    else
      let taken := (sp g).freelist.take want
      let left := (sp g).freelist.drop want
      let sp' := Function.update sp g { sp g with
        freelist := left, refcount := ((sp g).refcount + taken.length) % 2^32 }
      if left = [] then
        let r := removeLoop (want - taken.length) rest (g :: empty) sp'
        (taken ++ r.1, r.2)
      else (taken, ⟨sp', ⟨g :: rest, empty⟩⟩)

/-- `remove_range`: the chain delivered; `*count` is its length. -/
def removeRange (want : Nat) (l : Lists) : List Nat × Lists :=
  removeLoop want l.central.nonempty l.central.empty l.span

/-- `refcount--` on a 32-bit counter. -/
def dropRef (g : Nat) (sp : Nat → Span) : Nat → Span :=
  Function.update sp g { sp g with refcount := ((sp g).refcount + 2^32 - 1) % 2^32 }

/-- One round of the loop of `insert_range`. The object itself is not stored anywhere. -/
def insertOne (l : Lists) : Lists :=
  match l.central with
  | ⟨g :: rest, empty⟩ =>
    if (l.span g).sizeClass < kNumClasses then { l with span := dropRef g l.span }
    else
      match empty with
      | [] => l
      | e :: empty => ⟨dropRef e l.span, ⟨e :: g :: rest, empty⟩⟩
  | ⟨[], []⟩ => l
  | ⟨[], e :: empty⟩ => ⟨dropRef e l.span, ⟨[e], empty⟩⟩

def insertRange (chain : List Nat) (l : Lists) : Lists := chain.foldl (fun l _ => insertOne l) l

def addSpan (g : Nat) (l : Lists) : Lists :=
  { l with central := { l.central with nonempty := g :: l.central.nonempty } }

/-! ## What remove_range can deliver -/

def freeCount (sp : Nat → Span) (gs : List Nat) : Nat :=
  (gs.map (fun g => (sp g).freelist.length)).sum

/-- The number of objects `remove_range` can still deliver. -/
def deliverable (l : Lists) : Nat := freeCount l.span l.central.nonempty

theorem freeCount_congr {sp sp' : Nat → Span} {gs : List Nat}
    (h : ∀ g ∈ gs, (sp' g).freelist = (sp g).freelist) : freeCount sp' gs = freeCount sp gs := by
  unfold freeCount
  congr 1
  exact List.map_congr_left (fun g hg => by rw [h g hg])

theorem freeCount_update {sp : Nat → Span} {gs : List Nat} {g : Nat} {s : Span} (hg : g ∉ gs) :
    freeCount (Function.update sp g s) gs = freeCount sp gs :=
  freeCount_congr (fun g' hg' => by rw [Function.update_of_ne (ne_of_mem_of_not_mem hg' hg)])

@[simp] theorem freeCount_cons (sp : Nat → Span) (g : Nat) (gs : List Nat) :
    freeCount sp (g :: gs) = (sp g).freelist.length + freeCount sp gs := rfl

@[simp] theorem freeCount_dropRef (g : Nat) (sp : Nat → Span) (gs : List Nat) :
    freeCount (dropRef g sp) gs = freeCount sp gs := by
  refine freeCount_congr (fun g' _ => ?_)
  by_cases e : g' = g
  · subst e; rw [dropRef, Function.update_self]
  · rw [dropRef, Function.update_of_ne e]

/-- `remove_range` delivers as much as it was asked for, or all there is, and what it
delivers is what is no longer deliverable. -/
theorem removeLoop_count (want : Nat) (gs empty : List Nat) (sp : Nat → Span) (hnd : gs.Nodup) :
    (removeLoop want gs empty sp).1.length = min want (freeCount sp gs) ∧
      deliverable (removeLoop want gs empty sp).2 + (removeLoop want gs empty sp).1.length =
        freeCount sp gs := by
  induction gs generalizing want empty sp with
  | nil => simp [removeLoop, deliverable, freeCount]
  | cons g rest ih =>
    obtain ⟨hg, hrest⟩ := List.nodup_cons.mp hnd
    rw [removeLoop]
    split
    case isTrue h0 => simp [h0, deliverable]
    case isFalse h0 =>
      dsimp only
      split
      case isTrue hleft =>
        -- the span is drained: the rest of the request goes to the next span
        have hlen : (sp g).freelist.length ≤ want := by simpa using hleft
        obtain ⟨h1, h2⟩ := ih (want - ((sp g).freelist.take want).length) (g :: empty)
          (Function.update sp g { sp g with
            freelist := (sp g).freelist.drop want,
            refcount := ((sp g).refcount + ((sp g).freelist.take want).length) % 2^32 }) hrest
        rw [freeCount_update hg] at h1 h2
        simp only [List.length_append, List.length_take, freeCount_cons] at h1 h2 ⊢
        omega
      case isFalse hleft =>
        have hlen : want < (sp g).freelist.length := by simpa using hleft
        simp only [deliverable, freeCount_cons, Function.update_self, List.length_drop,
          List.length_take, freeCount_update hg]
        omega

theorem removeRange_count (want : Nat) (l : Lists) (h : l.central.nonempty.Nodup) :
    (removeRange want l).1.length = min want (deliverable l) ∧
      deliverable (removeRange want l).2 + (removeRange want l).1.length = deliverable l :=
  removeLoop_count want _ _ _ h

/-! ## Refcounts -/

/-- The objects of a span of class `cls`, as `build_freelist` carves them. -/
def Span.objects (cls : Nat) (s : Span) : List Nat :=
  buildFreelist s.start s.length (kClassInfo cls).size

theorem nodup_buildFreelist {start length size : Nat} (h : 0 < size) :
    (buildFreelist start length size).Nodup := by
  rw [buildFreelist, List.nodup_reverse]
  refine (List.nodup_map_iff ?_).mpr List.nodup_range
  intro i j e
  have e' : i * size = j * size := Nat.add_left_cancel e
  exact Nat.eq_of_mul_eq_mul_right h e'

/-- What is not in the rest of a list without repetitions is its beginning. -/
theorem filter_notMem_drop {l : List Nat} (h : l.Nodup) (k : Nat) :
    l.filter (fun a => a ∉ l.drop k) = l.take k := by
  have hsplit := List.nodup_append.mp ((List.take_append_drop k l).symm ▸ h)
  have hout : (l.take k).filter (fun a => a ∉ l.drop k) = l.take k :=
    List.filter_eq_self.mpr (fun a ha => by simpa using fun hd => hsplit.2.2 a ha a hd rfl)
  have hin : (l.drop k).filter (fun a => a ∉ l.drop k) = [] :=
    List.filter_eq_nil_iff.mpr (fun a ha => by simpa using ha)
  conv_lhs => rw [← List.take_append_drop k l]
  rw [List.filter_append]
  simp only [List.take_append_drop]
  rw [hout, hin, List.append_nil]

/-- The free list is what is left of the span's objects, and the refcount is the number of
objects taken from it. -/
def Tracked (cls : Nat) (s : Span) : Prop :=
  ∃ k ≤ (s.objects cls).length, s.freelist = (s.objects cls).drop k ∧ s.refcount = k

/-- The number of the span's own objects outside its free list. -/
def Span.outside (cls : Nat) (s : Span) : Nat :=
  ((s.objects cls).filter (fun a => a ∉ s.freelist)).length

theorem Tracked.refcount_eq {cls : Nat} {s : Span} (hc : cls < kNumClasses) (h : Tracked cls s) :
    s.refcount = s.outside cls := by
  obtain ⟨k, hk, hf, hr⟩ := h
  have hnd : (s.objects cls).Nodup :=
    nodup_buildFreelist (Nat.lt_of_lt_of_le (by decide) (classSize_bounds cls hc).1)
  rw [Span.outside, hf, filter_notMem_drop hnd, List.length_take, hr]
  exact (Nat.min_eq_left hk).symm

theorem Tracked.take {cls : Nat} {s : Span} (h : Tracked cls s) (want : Nat)
    (hlen : (s.objects cls).length < 2^32) :
    Tracked cls { s with
      freelist := s.freelist.drop want,
      refcount := (s.refcount + (s.freelist.take want).length) % 2^32 } := by
  obtain ⟨k, hk, hf, hr⟩ := h
  have hrest : s.freelist.length = (s.objects cls).length - k := by rw [hf, List.length_drop]
  refine ⟨k + min want s.freelist.length, by show _ ≤ (s.objects cls).length; omega, ?_, ?_⟩
  · show s.freelist.drop want = (s.objects cls).drop (k + min want s.freelist.length)
    rw [← List.drop_drop, ← hf]
    rcases Nat.le_total want s.freelist.length with hw | hw
    · rw [Nat.min_eq_left hw]
    · rw [Nat.min_eq_right hw, List.drop_eq_nil_of_le hw, List.drop_length]
  · show (s.refcount + (s.freelist.take want).length) % 2^32 = _
    rw [hr, List.length_take]
    exact Nat.mod_eq_of_lt (by omega)

/-- The two span lists of a class: no span twice, every span counted, and no objects left in
the spans of `empty`. -/
structure ListsOk (cls : Nat) (l : Lists) : Prop where
  nodup : (l.central.nonempty ++ l.central.empty).Nodup
  tracked : ∀ g ∈ l.central.nonempty ++ l.central.empty, Tracked cls (l.span g)
  small : ∀ g ∈ l.central.nonempty ++ l.central.empty, ((l.span g).objects cls).length < 2^32
  drained : ∀ g ∈ l.central.empty, (l.span g).freelist = []

theorem ListsOk.removeLoop {cls : Nat} (want : Nat) (gs empty : List Nat) (sp : Nat → Span)
    (h : ListsOk cls ⟨sp, ⟨gs, empty⟩⟩) : ListsOk cls (removeLoop want gs empty sp).2 := by
  induction gs generalizing want empty sp with
  | nil => exact h
  | cons g rest ih =>
    rw [Tcmalloc.removeLoop]
    split
    case isTrue => exact h
    case isFalse h0 =>
      dsimp only
      have hmem : ∀ x, x ∈ rest ++ g :: empty ↔ x ∈ g :: rest ++ empty := by
        intro x; simp only [List.mem_append, List.mem_cons]; tauto
      -- only span `g` changed, and it keeps count
      have htr : ∀ x ∈ g :: rest ++ empty, Tracked cls (Function.update sp g { sp g with
          freelist := (sp g).freelist.drop want,
          refcount := ((sp g).refcount + ((sp g).freelist.take want).length) % 2^32 } x) := by
        intro x hx
        by_cases e : x = g
        · subst e
          rw [Function.update_self]
          exact (h.tracked x hx).take want (h.small x hx)
        · rw [Function.update_of_ne e]
          exact h.tracked x hx
      have hsm : ∀ x ∈ g :: rest ++ empty, ((Function.update sp g { sp g with
          freelist := (sp g).freelist.drop want,
          refcount := ((sp g).refcount + ((sp g).freelist.take want).length) % 2^32 } x).objects
            cls).length < 2^32 := by
        intro x hx
        by_cases e : x = g
        · subst e
          rw [Function.update_self]
          exact h.small x hx
        · rw [Function.update_of_ne e]
          exact h.small x hx
      have hge : ∀ x ∈ empty, x ≠ g := by
        rintro x hx rfl
        exact (List.nodup_cons.mp h.nodup).1 (List.mem_append_right _ hx)
      split
      case isTrue hleft =>
        refine ih _ _ _ ⟨?_, fun x hx => htr x ((hmem x).mp hx),
          fun x hx => hsm x ((hmem x).mp hx), ?_⟩
        · exact (List.perm_middle.nodup_iff).mpr h.nodup
        · intro x hx
          rcases List.mem_cons.mp hx with rfl | hx
          · show (Function.update sp x _ x).freelist = []
            rw [Function.update_self]; exact hleft
          · show (Function.update sp g _ x).freelist = []
            rw [Function.update_of_ne (hge x hx)]
            exact h.drained x hx
      case isFalse hleft =>
        refine ⟨h.nodup, htr, hsm, fun x hx => ?_⟩
        show (Function.update sp g _ x).freelist = []
        rw [Function.update_of_ne (hge x hx)]
        exact h.drained x hx

/-! ## Runs -/

/-- A central list and the objects it has handed out. -/
structure Trade where
  lists : Lists
  out : List Nat

inductive Transfer where
  | addSpan (g start : Nat)
  | removeRange (want : Nat)
  | insertRange (chain : List Nat)

/-- The span `tc_malloc` adds to the list of its class. -/
def classSpan (cls start : Nat) : Span :=
  let info := kClassInfo cls
  { zeroSpan with
    start := start, length := info.pages, sizeClass := cls,
    freelist := buildFreelist start info.pages info.size }

def Lists.members (l : Lists) : List Nat := l.central.nonempty ++ l.central.empty

/-- One call. A span is added once, on pages no other span has, and only objects that are out
come back. -/
def Trade.step (cls : Nat) (w : Trade) : Transfer → Option Trade
  | .addSpan g start =>
    if g ∉ w.lists.members ∧ ∀ g' ∈ w.lists.members, (w.lists.span g').start ≠ start then
      some ⟨addSpan g { w.lists with
        span := Function.update w.lists.span g (classSpan cls start) }, w.out⟩
    else none
  | .removeRange want =>
    let r := removeRange want w.lists
    some ⟨r.2, r.1 ++ w.out⟩
  | .insertRange chain =>
    if chain.Nodup ∧ ∀ a ∈ chain, a ∈ w.out then
      some ⟨insertRange chain w.lists, w.out.filter (· ∉ chain)⟩
    else none

def Trade.run (cls : Nat) : Trade → List Transfer → Option Trade
  | w, [] => some w
  | w, c :: cs => (w.step cls c).bind (Trade.run cls · cs)

/-- What the call does to the number of deliverable objects. -/
def Transfer.Exact (c : Transfer) (before after : Lists) : Prop :=
  match c with
  | .addSpan _ _ => True
  | .removeRange want =>
    deliverable after + (Tcmalloc.removeRange want before).1.length = deliverable before
  | .insertRange chain => deliverable after = deliverable before + chain.length

/-- Every refcount is the number of the span's objects outside its free list. -/
def RefsExact (cls : Nat) (l : Lists) : Prop :=
  ∀ g ∈ l.members, (l.span g).refcount = (l.span g).outside cls

/-- No object is lost along the run: refcounts are exact in every state, and every call
changes the deliverable objects by what it moves. -/
def Trade.Conserves (cls : Nat) : Trade → List Transfer → Prop
  | w, [] => RefsExact cls w.lists
  | w, c :: cs => RefsExact cls w.lists ∧
      ∀ w', w.step cls c = some w' → c.Exact w.lists w'.lists ∧ Trade.Conserves cls w' cs

def Trade.start : Trade := ⟨⟨fun _ => zeroSpan, ⟨[], []⟩⟩, []⟩

variable {cls : Nat}

theorem ListsOk.refsExact {l : Lists} (hc : cls < kNumClasses) (h : ListsOk cls l) :
    RefsExact cls l := fun g hg => (h.tracked g hg).refcount_eq hc

theorem ListsOk.addSpan {l : Lists} (h : ListsOk cls l) {g start : Nat} (hc : cls < kNumClasses)
    (hg : g ∉ l.members) :
    ListsOk cls (addSpan g { l with span := Function.update l.span g (classSpan cls start) }) := by
  have hnew : ((classSpan cls start).objects cls).length < 2^32 := by
    have := (classSize_bounds cls hc).1
    have : 1 * kPageSize / (kClassInfo cls).size ≤ 1 * kPageSize := Nat.div_le_self _ _
    have e : ((classSpan cls start).objects cls).length = 1 * kPageSize / (kClassInfo cls).size := by
      simp [classSpan, Span.objects, buildFreelist, kClassInfo]
    have : kPageSize = 8192 := rfl
    omega
  have hold : ∀ x ∈ l.members, Function.update l.span g (classSpan cls start) x = l.span x :=
    fun x hx => Function.update_of_ne (ne_of_mem_of_not_mem hx hg) _ _
  refine ⟨List.nodup_cons.mpr ⟨hg, h.nodup⟩, fun x hx => ?_, fun x hx => ?_, fun x hx => ?_⟩
  · rcases List.mem_cons.mp hx with rfl | hx
    · show Tracked cls (Function.update l.span x _ x)
      rw [Function.update_self]
      exact ⟨0, Nat.zero_le _, rfl, rfl⟩
    · show Tracked cls (Function.update l.span g _ x)
      rw [hold x hx]
      exact h.tracked x hx
  · rcases List.mem_cons.mp hx with rfl | hx
    · show ((Function.update l.span x _ x).objects cls).length < 2^32
      rw [Function.update_self]
      exact hnew
    · show ((Function.update l.span g _ x).objects cls).length < 2^32
      rw [hold x hx]
      exact h.small x hx
  · show (Function.update l.span g _ x).freelist = []
    rw [hold x (List.mem_append_right _ hx)]
    exact h.drained x hx

theorem deliverable_insertOne {l : Lists} (h : ∀ g ∈ l.central.empty, (l.span g).freelist = []) :
    deliverable (insertOne l) = deliverable l ∧
      ∀ g ∈ (insertOne l).central.empty, ((insertOne l).span g).freelist = [] := by
  have hdrop : ∀ e g, (dropRef e l.span g).freelist = (l.span g).freelist := by
    intro e g
    by_cases he : g = e
    · subst he; rw [dropRef, Function.update_self]
    · rw [dropRef, Function.update_of_ne he]
  obtain ⟨sp, ⟨nonempty, empty⟩⟩ := l
  simp only [insertOne]
  cases nonempty with
  | nil =>
    cases empty with
    | nil => exact ⟨rfl, h⟩
    | cons e empty =>
      refine ⟨?_, fun g hg => by rw [hdrop]; exact h g (List.mem_cons_of_mem _ hg)⟩
      simpa [deliverable, freeCount, hdrop] using h e List.mem_cons_self
  | cons g rest =>
    dsimp only
    split
    case isTrue => exact ⟨freeCount_dropRef .., fun x hx => by rw [hdrop]; exact h x hx⟩
    case isFalse =>
      cases empty with
      | nil => exact ⟨rfl, h⟩
      | cons e empty =>
        refine ⟨?_, fun x hx => by rw [hdrop]; exact h x (List.mem_cons_of_mem _ hx)⟩
        show freeCount (dropRef e sp) (e :: g :: rest) = freeCount sp (g :: rest)
        rw [freeCount_dropRef, freeCount_cons, h e List.mem_cons_self]
        simp

theorem deliverable_insertRange {l : Lists}
    (h : ∀ g ∈ l.central.empty, (l.span g).freelist = []) (chain : List Nat) :
    deliverable (insertRange chain l) = deliverable l := by
  induction chain generalizing l with
  | nil => rfl
  | cons a chain ih =>
    obtain ⟨h1, h2⟩ := deliverable_insertOne h
    exact (ih h2).trans h1

/-- As long as nothing is returned, a call is exact and the lists stay as they should. -/
theorem ListsOk.step {w w' : Trade} {c : Transfer} (hc : cls < kNumClasses)
    (h : ListsOk cls w.lists) (hs : w.step cls c = some w')
    (hret : ∀ chain, c = .insertRange chain → chain = []) :
    c.Exact w.lists w'.lists ∧ ListsOk cls w'.lists := by
  cases c with
  | addSpan g start =>
    simp only [Trade.step] at hs
    split at hs
    case isTrue hg =>
      rw [← Option.some.inj hs]
      exact ⟨trivial, h.addSpan hc hg.1⟩
    case isFalse => cases hs
  | removeRange want =>
    have hcount := (removeRange_count want w.lists (List.nodup_append.mp h.nodup).1).2
    rw [← Option.some.inj hs]
    exact ⟨hcount, ListsOk.removeLoop want _ _ _ h⟩
  | insertRange chain =>
    obtain rfl := hret chain rfl
    simp only [Trade.step] at hs
    rw [if_pos (by simp)] at hs
    rw [← Option.some.inj hs]
    exact ⟨rfl, h⟩

/-- A chain that is not empty is lost. -/
theorem not_exact_insertRange {w w' : Trade} {chain : List Nat} (h : ListsOk cls w.lists)
    (hs : w.step cls (.insertRange chain) = some w') (hne : chain ≠ []) :
    ¬ (Transfer.insertRange chain).Exact w.lists w'.lists := by
  simp only [Trade.step] at hs
  split at hs
  case isFalse => cases hs
  case isTrue =>
    rw [← Option.some.inj hs]
    show ¬ deliverable (insertRange chain w.lists) = deliverable w.lists + chain.length
    rw [deliverable_insertRange h.drained]
    have := List.length_pos_iff.mpr hne
    omega

theorem conserves_iff_of_ok {w w' : Trade} {calls : List Transfer} (hc : cls < kNumClasses)
    (h : ListsOk cls w.lists) (hr : w.run cls calls = some w') :
    w.Conserves cls calls ↔ ∀ chain, .insertRange chain ∈ calls → chain = [] := by
  induction calls generalizing w with
  | nil => exact ⟨fun _ => by simp, fun _ => h.refsExact hc⟩
  | cons c cs ih =>
    obtain ⟨v, hv, hrun⟩ := Option.bind_eq_some_iff.mp hr
    by_cases hret : ∀ chain, c = .insertRange chain → chain = []
    · -- nothing is returned by this call: it is exact, and the rest decides
      obtain ⟨hexact, hok⟩ := h.step hc hv hret
      rw [Trade.Conserves]
      constructor
      · rintro ⟨-, hcons⟩ chain hm
        rcases List.mem_cons.mp hm with e | hm
        · exact hret chain e.symm
        · exact (ih hok hrun).mp (hcons v hv).2 chain hm
      · intro hall
        refine ⟨h.refsExact hc, fun v' hv' => ?_⟩
        rw [hv] at hv'
        obtain rfl := Option.some.inj hv'
        exact ⟨hexact, (ih hok hrun).mpr (fun chain hm => hall chain (List.mem_cons_of_mem _ hm))⟩
    · push Not at hret
      obtain ⟨chain, rfl, hne⟩ := hret
      constructor
      · intro hcons
        exact absurd (hcons.2 v hv).1 (not_exact_insertRange h hv hne)
      · intro hall
        exact absurd (hall chain List.mem_cons_self) hne

theorem listsOk_start : ListsOk cls Trade.start.lists :=
  ⟨List.nodup_nil, by simp [Trade.start], by simp [Trade.start], by simp [Trade.start]⟩

/-- A run of the central list of a class loses no object exactly when no object is ever
returned to it. -/
theorem conserves_iff_no_return (hc : cls < kNumClasses) {calls : List Transfer} {w : Trade}
    (h : Trade.start.run cls calls = some w) :
    Trade.start.Conserves cls calls ↔ ∀ chain, .insertRange chain ∈ calls → chain = [] :=
  conserves_iff_of_ok hc listsOk_start h

/-- A run that returns nothing: a span of the class of 1080 bytes is drained in two steps. -/
theorem conserves_drain :
    Trade.start.Conserves 85 [.addSpan 1 256, .removeRange 3, .removeRange 32] :=
  (conserves_iff_no_return (by decide) rfl).mpr (by simp)

/-- One object of 1080 bytes is taken and given back: it cannot be delivered any more. -/
theorem returned_object_lost :
    (Trade.start.run 85 [.addSpan 1 256, .removeRange 1, .insertRange [2103632]]).isSome = true ∧
      ¬ Trade.start.Conserves 85 [.addSpan 1 256, .removeRange 1, .insertRange [2103632]] := by
  refine ⟨by decide, fun h => ?_⟩
  have h1 := (h.2 _ rfl).2
  have h2 := (h1.2 _ rfl).2
  have h3 : deliverable _ = deliverable _ + 1 := (h2.2 _ rfl).1
  exact absurd h3 (by decide)

end MyMalloc.Tcmalloc
