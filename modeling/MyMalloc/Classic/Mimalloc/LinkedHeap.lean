import MyMalloc.Classic.Mimalloc.Links
import Mathlib.Data.List.Perm.Subperm

/- The small requests of one thread, with the free lists in memory.

   `LState` is the allocator with its pages as `mi_page_t` has them and the words
   of the blocks; what does not concern the pages is that of `Mimalloc.State`.
   The client writes into its blocks what it likes. `Rep` relates such a state to
   one of the model with lists, and every operation here simulates the operation
   of that model (`Rep.smallAlloc`, `Rep.miFree`), so the invariant `Inv` of the
   blocks carries over. What it does not say is in `Solo`: all pages are the
   thread's own, and their counters add up. -/
namespace MyMalloc.Mimalloc

/-- The allocator with its pages in memory; the pages of `shell` are not used. -/
structure LState (τ : Type) where
  shell : State τ
  page : Nat → Option LPage
  word : Words

/-- `p` is the `i`-th block of the page, for some `i`. -/
def LPage.IsBlock (seg : Nat) (pg : LPage) (p : Nat) : Prop :=
  ∃ i < pg.capacity, p = seg + blockOffset + i * pg.blockSize

/-- `mi_segment_t::page_of` for a segment with its page at hand. -/
def LPage.has (pg : LPage) (seg p : Nat) : Bool :=
  decide (pg.blockSize ≠ 0 ∧ seg + blockOffset ≤ p ∧
    p < seg + blockOffset + pg.capacity * pg.blockSize)

namespace LState
variable {τ : Type}

/-- Before the first call; the memory holds anything. -/
def start (τ : Type) (word : Words) : LState τ := ⟨State.start τ, fun _ => none, word⟩

def put (s : LState τ) (seg : Nat) (p : LPage × Words) : LState τ :=
  { s with page := Function.update s.page seg (some p.1), word := p.2 }

/-- The first free block of a page; null has none. -/
def localFree (s : LState τ) (seg : Nat) : Nat := ((s.page seg).map (·.localFree)).getD 0

/-- The drains at the beginning of `mi_malloc`. -/
def drain (fuel seg : Nat) (s : LState τ) : Option (LState τ) :=
  match s.page seg with
  | none => none
  | some pg =>
    if pg.xthreadFree = 0 then some s else (drainRemote seg fuel (pg, s.word)).map (s.put seg)

/-- The client writes into its block `p`. -/
def write (p : Nat) (f : Words) (s : LState τ) : LState τ :=
  let size := ((s.page (segmentOf p)).map (·.blockSize)).getD 0
  { s with word := fun a => if p ≤ a ∧ a < p + size then f a else s.word a }

variable [DecidableEq τ]

def miPageAlloc (host : Host) (t : τ) (heapTag c : Nat) (s : LState τ) : Option Nat × LState τ :=
  match segmentAlloc host s.shell with
  | (none, shell) => (none, { s with shell := shell })
  | (some seg, shell) =>
    (some seg, put { s with shell := setDirect t c seg shell } seg
      (initPage seg (miClassSize c) heapTag s.word))

/-- Pops a block off the page's list; a page that is full now is forgotten by the heap. -/
def popBlock (t : τ) (c seg : Nat) (s : LState τ) : Option (Option Nat × LState τ) :=
  match s.page seg with
  | none => none
  | some pg =>
    if pg.localFree = 0 then none
    else
      let (b, pg, word) := popLocal (pg, s.word)
      let pg := { pg with used := (pg.used + 1) % 2^32 }
      let s := s.put seg (pg, word)
      some (some b,
        if pg.used = pg.capacity then { s with shell := setDirect t c 0 s.shell } else s)

/-- A block from a new page. -/
def growAndPop (host : Host) (t : τ) (heapTag c : Nat) (s : LState τ) :
    Option (Option Nat × LState τ) :=
  match miPageAlloc host t heapTag c s with
  | (none, s) => some (none, s)
  | (some seg, s) => popBlock t c seg s

/-- The page the heap has for the class, or a new one if that is without free blocks. -/
def choosePage (host : Host) (t : τ) (h : Heap) (c : Nat) (s : LState τ) : Option Nat × LState τ :=
  if h.pageDirect c = 0 ∨ s.localFree (h.pageDirect c) = 0 then miPageAlloc host t h.id c s
  else (some (h.pageDirect c), s)

/-- The drains, and a block of the page or, if it is without, of a new one. -/
def drainAndPop (host : Host) (fuel : Nat) (t : τ) (heapTag c seg : Nat) (s : LState τ) :
    Option (Option Nat × LState τ) :=
  (drain fuel seg s).bind (fun s =>
    if s.localFree seg = 0 then growAndPop host t heapTag c s else popBlock t c seg s)

/-- What follows the choice of a page. -/
def popFrom (host : Host) (fuel : Nat) (t : τ) (heapTag c : Nat) :
    Option Nat × LState τ → Option (Option Nat × LState τ)
  | (none, s) => some (none, s)
  | (some seg, s) => drainAndPop host fuel t heapTag c seg s

def smallAlloc (host : Host) (fuel : Nat) (t : τ) (c : Nat) (s : LState τ) :
    Option (Option Nat × LState τ) :=
  match s.shell.heap t with
  | none => none
  | some h => popFrom host fuel t h.id c (choosePage host t h c s)

/-- `mi_malloc` for a request of at most 8 KiB. -/
def miMalloc (host : Host) (fuel : Nat) (t : τ) (n : Nat) (s : LState τ) :
    Option (Option Nat × LState τ) :=
  let shell := miInit host t s.shell
  let n := if n = 0 then 1 else n
  smallAlloc host fuel t (miClassIndex n) { s with shell := threadInit host t shell }

omit [DecidableEq τ] in
/-- `mi_free` for a block of a segment. -/
def miFree (t : τ) (p : Nat) (s : LState τ) : Option (LState τ) :=
  if p = 0 then some s
  else (s.page (segmentOf p)).map (fun pg =>
    if pg.has (segmentOf p) p then
      let push := if (s.shell.heap t).map (·.id) = some pg.heapTag then pushLocal p else pushRemote p
      let (pg, word) := push (pg, s.word)
      s.put (segmentOf p) ({ pg with used := (pg.used + 2^32 - 1) % 2^32 }, word)
    else s)

end LState

/-! ## Simulation of the model with lists -/

variable {τ : Type} {s : State τ} {ls : LState τ} {held : List Nat} {host : Host}

/-- The state in memory represents the state with lists. -/
structure Rep (ls : LState τ) (s : State τ) : Prop where
  shell : ls.shell = { s with page := fun _ => none }
  page : ∀ seg, Option.Rel (Linked seg ls.word) (ls.page seg) (s.page seg)

namespace Rep

theorem heap (h : Rep ls s) (t : τ) : ls.shell.heap t = s.heap t := by rw [h.shell]

theorem exists_page (h : Rep ls s) {seg : Nat} {pg : Page} (hpg : s.page seg = some pg) :
    ∃ lp, ls.page seg = some lp ∧ Linked seg ls.word lp pg := by
  have hrel := h.page seg
  rw [hpg] at hrel
  cases hl : ls.page seg with
  | none => rw [hl] at hrel; cases hrel
  | some lp =>
    rw [hl] at hrel
    cases hrel with
    | some hk => exact ⟨lp, rfl, hk⟩

theorem exists_list (h : Rep ls s) {seg : Nat} {lp : LPage} (hlp : ls.page seg = some lp) :
    ∃ pg, s.page seg = some pg ∧ Linked seg ls.word lp pg := by
  have hrel := h.page seg
  rw [hlp] at hrel
  cases hs : s.page seg with
  | none => rw [hs] at hrel; cases hrel
  | some pg =>
    rw [hs] at hrel
    cases hrel with
    | some hk => exact ⟨pg, rfl, hk⟩

/-- The words in the lists of the pages are kept. -/
theorem setWord (h : Rep ls s) {word : Words}
    (hword : ∀ seg pg, s.page seg = some pg → ∀ b ∈ pg.localFree ++ pg.xthreadFree,
      word b = ls.word b) : Rep { ls with word := word } s := by
  refine ⟨h.shell, fun seg => ?_⟩
  have hrel := h.page seg
  have hw := hword seg
  show Option.Rel (Linked seg word) (ls.page seg) (s.page seg)
  generalize ls.page seg = l, s.page seg = r at hrel hw
  cases hrel with
  | none => exact .none
  | some hk =>
    exact .some (hk.frame (fun b hb => hw _ rfl b (List.mem_append_left _ hb))
      (fun b hb => hw _ rfl b (List.mem_append_right _ hb)))

/-- One page changes; the words in the lists of the others are kept. -/
theorem put (h : Rep ls s) {seg : Nat} {pg : Page} {p : LPage × Words}
    (hk : Linked seg p.2 p.1 pg)
    (hword : ∀ a q, a ≠ seg → s.page a = some q → ∀ b ∈ q.localFree ++ q.xthreadFree,
      p.2 b = ls.word b) : Rep (ls.put seg p) (s.putPage seg pg) := by
  refine ⟨h.shell, fun a => ?_⟩
  by_cases e : a = seg
  · subst e
    simp only [LState.put, State.putPage, Function.update_self]
    exact .some hk
  · simp only [LState.put, State.putPage, Function.update_of_ne e]
    have hrel := h.page a
    have hw := hword a
    generalize ls.page a = l, s.page a = r at hrel hw
    cases hrel with
    | none => exact .none
    | some hk =>
      exact .some (hk.frame (fun b hb => hw _ e rfl b (List.mem_append_left _ hb))
        (fun b hb => hw _ e rfl b (List.mem_append_right _ hb)))

end Rep

/-- Listed blocks of different pages lie in different segments. -/
theorem Inv.notMem_other (inv : Inv s held) {seg a b : Nat} {q : Page} (hne : a ≠ seg)
    (hseg : ⟨seg, segmentSize⟩ ∈ s.regions ∨ ∀ r ∈ s.regions, r.Apart ⟨seg, segmentSize⟩)
    (hb : seg ≤ b ∧ b < seg + segmentSize) (hq : s.page a = some q) :
    b ∉ q.localFree ++ q.xthreadFree := by
  obtain ⟨hmem, -, hok⟩ := inv.segment a q hq
  rw [hok.quiet, List.append_nil]
  intro hin
  have has := inv.segment_has hq (hok.blocks b hin)
  rcases hseg with hseg | hfresh
  · exact hne (congrArg Region.base (inv.region_eq hmem hseg has hb))
  · exact (hfresh _ hmem).not_has has hb

theorem PageOk.block_bounds {seg b : Nat} {pg : Page} (hok : PageOk seg pg) (hb : IsBlock seg pg b) :
    seg + blockOffset ≤ b ∧ b + pg.blockSize ≤ seg + segmentSize := by
  have := hb.within
  have := hok.fits
  omega

theorem blocks_length_le {seg : Nat} {pg : Page} {l : List Nat} (hnd : l.Nodup)
    (hl : ∀ b ∈ l, IsBlock seg pg b) : l.length ≤ pg.capacity := by
  have hsub : l ⊆ (List.range pg.capacity).map (fun i => seg + blockOffset + i * pg.blockSize) := by
    intro b hb
    obtain ⟨i, hi, rfl⟩ := hl b hb
    exact List.mem_map.mpr ⟨i, List.mem_range.mpr hi, rfl⟩
  simpa using (List.subperm_of_subset hnd hsub).length_le

theorem PageOk.capacity_lt {seg : Nat} {pg : Page} (hok : PageOk seg pg) : pg.capacity < 2^31 := by
  have hfits := hok.fits
  have h1 : pg.capacity * 1 ≤ pg.capacity * pg.blockSize := Nat.mul_le_mul_left _ hok.pos
  have h2 : segmentSize = 65536 := rfl
  omega

theorem Inv.localFree_lt (inv : Inv s held) {seg : Nat} {pg : Page} (hpg : s.page seg = some pg) :
    pg.localFree.length < 2^32 := by
  obtain ⟨-, -, hok⟩ := inv.segment seg pg hpg
  have h1 := blocks_length_le (inv.free seg pg hpg).1 hok.blocks
  have h2 := hok.capacity_lt
  omega

theorem segmentAlloc_page (host : Host) (s : State τ) (page : Nat → Option Page) :
    segmentAlloc host { s with page := page } =
      ((segmentAlloc host s).1, { (segmentAlloc host s).2 with page := page }) := by
  have hm : mmapAnswer host (2 * segmentSize) { s with page := page } =
      mmapAnswer host (2 * segmentSize) s := rfl
  unfold segmentAlloc
  rw [hm]
  cases mmapAnswer host (2 * segmentSize) s <;> rfl

variable [DecidableEq τ]

theorem threadInit_page (host : Host) (t : τ) (s : State τ) (page : Nat → Option Page) :
    threadInit host t { s with page := page } = { threadInit host t s with page := page } := by
  unfold threadInit
  dsimp only
  split
  · rfl
  · split <;> rfl

theorem miInit_page (host : Host) (t : τ) (s : State τ) (page : Nat → Option Page) :
    miInit host t { s with page := page } = { miInit host t s with page := page } := by
  unfold miInit
  dsimp only
  split
  · rfl
  · exact threadInit_page host t { s with initOnce := true } page

theorem LState.popBlock_eq {t : τ} {c seg : Nat} {lp : LPage} (hlp : ls.page seg = some lp)
    (hne : lp.localFree ≠ 0) :
    LState.popBlock t c seg ls =
      let p := popLocal (lp, ls.word)
      let ls₁ := ls.put seg ({ p.2.1 with used := (lp.used + 1) % 2^32 }, p.2.2)
      some (some lp.localFree, if (lp.used + 1) % 2^32 = lp.capacity then
        { ls₁ with shell := setDirect t c 0 ls₁.shell } else ls₁) := by
  simp only [LState.popBlock, hlp, if_neg hne]
  rfl

namespace Rep

variable (h : Rep ls s)
include h

omit [DecidableEq τ] in
theorem setShell {x : State τ} (hpage : x.page = s.page) :
    Rep { ls with shell := { x with page := fun _ => none } } x :=
  ⟨rfl, fun seg => by rw [hpage]; exact h.page seg⟩

theorem setDirect (t : τ) (c seg : Nat) :
    Rep { ls with shell := setDirect t c seg ls.shell } (setDirect t c seg s) := by
  have := h.setShell (x := Mimalloc.setDirect t c seg s) rfl
  rw [h.shell]
  exact this

theorem threadInit (host : Host) (t : τ) :
    Rep { ls with shell := threadInit host t ls.shell } (threadInit host t s) := by
  rw [h.shell, threadInit_page]
  exact h.setShell (threadInit_frame host t s).2.1

theorem miInit (host : Host) (t : τ) :
    Rep { ls with shell := miInit host t ls.shell } (miInit host t s) := by
  rw [h.shell, miInit_page]
  refine h.setShell ?_
  unfold Mimalloc.miInit
  split
  · rfl
  · exact (threadInit_frame host t { s with initOnce := true }).2.1

theorem miPageAlloc (inv : Inv s held) (host : Host) (t : τ) (tag : Nat) {c : Nat}
    (hc : c < classCountSmall) :
    (LState.miPageAlloc host t tag c ls).1 = (miPageAlloc host t tag c s).1 ∧
      Rep (LState.miPageAlloc host t tag c ls).2 (miPageAlloc host t tag c s).2 := by
  have hpos := (miClassSize_bounds hc).1
  unfold LState.miPageAlloc Mimalloc.miPageAlloc
  rw [h.shell, segmentAlloc_page]
  rcases segmentAlloc_cases host s with ⟨-, hs⟩ | ⟨seg, hdvd, hne, htop, hfresh, hs⟩
  · rw [hs]
    exact ⟨rfl, h.setShell rfl⟩
  · rw [hs]
    refine ⟨rfl, ?_⟩
    have h1 := h.setShell (x := Mimalloc.setDirect t c seg { s with
      mmapCalls := s.mmapCalls + 1, regions := ⟨seg, segmentSize⟩ :: s.regions }) rfl
    refine h1.put (initPage_linked seg tag hpos ls.word) (fun a q ha hq b hb => ?_)
    refine initPage_word ?_ hpos ls.word
    by_contra hin
    exact inv.notMem_other ha (.inr hfresh) (by omega) hq hb

theorem popBlock (inv : Inv s held) (t : τ) {c seg : Nat} {r : Option Nat}
    {s' : State τ} (hpop : popBlock t c seg s = some (r, s')) :
    ∃ ls', LState.popBlock t c seg ls = some (r, ls') ∧ Rep ls' s' := by
  unfold Mimalloc.popBlock at hpop
  cases hpg : s.page seg with
  | none => rw [hpg] at hpop; cases hpop
  | some pg =>
    obtain ⟨hmem, -, hok⟩ := inv.segment seg pg hpg
    obtain ⟨lp, hlp, hk⟩ := h.exists_page hpg
    simp only [hpg] at hpop
    split at hpop
    · cases hpop
    · next b rest hl =>
      obtain ⟨rfl, rfl⟩ := Prod.mk.inj (Option.some.inj hpop)
      obtain ⟨hb, hk'⟩ := hk.pop hl (by rw [hok.quiet]; exact List.not_mem_nil)
        (inv.localFree_lt hpg)
      have hne : lp.localFree ≠ 0 := fun e => by
        have := hk.free.eq_nil_iff.mpr e
        rw [hl] at this
        cases this
      have hbb := hok.block_bounds (hok.blocks b (by rw [hl]; exact List.mem_cons_self ..))
      have hpos := hok.pos
      have hrep := h.put (hk'.setUsed ((pg.used + 1) % 2^32))
        (p := ({ (popLocal (lp, ls.word)).2.1 with used := (pg.used + 1) % 2^32 },
          (popLocal (lp, ls.word)).2.2))
        (fun a q ha hq x hx => Function.update_of_ne (fun e => by
          obtain rfl : x = b := e.trans hb
          exact inv.notMem_other ha (.inl hmem) (by omega) hq hx) _ _)
      rw [LState.popBlock_eq hlp hne]
      dsimp only
      rw [show lp.localFree = b from hb, hk.used, hk.capacity]
      refine ⟨_, rfl, ?_⟩
      split
      · exact hrep.setDirect t c 0
      · exact hrep

omit [DecidableEq τ] in
theorem localFree_eq_zero (seg : Nat) :
    ls.localFree seg = 0 ↔ s.freeBlocks seg = [] := by
  have hrel := h.page seg
  unfold LState.localFree State.freeBlocks
  generalize ls.page seg = l, s.page seg = r at hrel
  cases hrel with
  | none => simp
  | some hk => exact (hk.free.eq_nil_iff).symm

theorem drainAndPop (fuel : Nat) (t : τ) (tag c : Nat) {seg : Nat} {pg : Page}
    (hpg : s.page seg = some pg) (hquiet : pg.xthreadFree = []) (hne : pg.localFree ≠ []) :
    LState.drainAndPop host fuel t tag c seg ls = LState.popBlock t c seg ls := by
  obtain ⟨lp, hlp, hk⟩ := h.exists_page hpg
  have hq : lp.xthreadFree = 0 := hk.queue.eq_nil_iff.mp hquiet
  have hfree : ls.localFree seg ≠ 0 := by
    rw [Ne, h.localFree_eq_zero, State.freeBlocks, hpg]
    exact hne
  simp only [LState.drainAndPop, LState.drain, hlp, if_pos hq, Option.bind_some, if_neg hfree]

theorem growAndPop (inv : Inv s held) (fuel : Nat) (t : τ) (tag : Nat) {c : Nat}
    (hc : c < classCountSmall) {r : Option Nat} {s' : State τ}
    (hgrow : growAndPop host t tag c s = some (r, s')) :
    ∃ ls', LState.popFrom host fuel t tag c (LState.miPageAlloc host t tag c ls) = some (r, ls') ∧
      Rep ls' s' := by
  obtain ⟨h1, h2⟩ := h.miPageAlloc inv host t tag hc
  unfold Mimalloc.growAndPop at hgrow
  generalize LState.miPageAlloc host t tag c ls = p at h1 h2
  obtain ⟨seg?, ls'⟩ := p
  rcases inv.miPageAlloc host t tag hc with ⟨-, hs⟩ | ⟨seg, -, hfull, inv1, hs⟩
  · rw [hs] at h1 h2 hgrow
    obtain ⟨rfl, rfl⟩ := Prod.mk.inj (Option.some.inj hgrow)
    obtain rfl : seg? = none := h1
    exact ⟨ls', rfl, h2⟩
  · rw [hs] at h1 h2 hgrow
    obtain rfl : seg? = some seg := h1
    have hpage := addSegment_page s seg (freshPage seg (miClassSize c) tag)
    rw [LState.popFrom, h2.drainAndPop fuel t tag c hpage rfl hfull]
    exact h2.popBlock inv1 t hgrow

/-- With empty queues `mi_malloc` drains nothing, and both models give the same block. -/
theorem smallAlloc (inv : Inv s held) (fuel : Nat) (t : τ) {c : Nat}
    (hc : c < classCountSmall) {r : Option Nat} {s' : State τ}
    (hsmall : smallAlloc host t c s = some (r, s')) :
    ∃ ls', LState.smallAlloc host fuel t c ls = some (r, ls') ∧ Rep ls' s' := by
  unfold Mimalloc.smallAlloc at hsmall
  unfold LState.smallAlloc
  rw [h.heap t]
  cases hh : s.heap t with
  | none => rw [hh] at hsmall; cases hsmall
  | some hp =>
    simp only [hh] at hsmall
    dsimp only [LState.choosePage]
    by_cases hnew : hp.pageDirect c = 0 ∨ s.freeBlocks (hp.pageDirect c) = []
    · rw [if_pos hnew] at hsmall
      rw [if_pos (hnew.imp_right (h.localFree_eq_zero _).mpr)]
      exact h.growAndPop inv fuel t hp.id hc hsmall
    · obtain ⟨h0, hfree⟩ := not_or.mp hnew
      obtain ⟨pg, hpg, -⟩ := inv.direct t hp c hh h0
      obtain ⟨-, -, hok⟩ := inv.segment _ pg hpg
      rw [if_neg hnew, if_neg (by rw [hpg]; exact not_not.mpr hok.quiet)] at hsmall
      rw [if_neg (fun hc => hnew (hc.imp_right (h.localFree_eq_zero _).mp)), LState.popFrom,
        h.drainAndPop fuel t hp.id c hpg hok.quiet (fun e => hfree (by rw [State.freeBlocks, hpg]; exact e))]
      exact h.popBlock inv t hsmall

omit [DecidableEq τ] in
theorem pageFree (inv : Inv s held) {t : τ} {seg p : Nat} {pg : Page}
    (hpg : s.page seg = some pg) (hb : IsBlock seg pg p) (hp : p ∈ held)
    (hown : (s.heap t).map (·.id) = some pg.heapTag) :
    ∃ ls', LState.miFree t p ls = some ls' ∧ Rep ls' (pageFree t p pg s) := by
  obtain ⟨hmem, -, hok⟩ := inv.segment seg pg hpg
  obtain ⟨hseg, -, hhas⟩ := inv.inSegment_small hpg hb (fun _ => 0)
  obtain ⟨lp, hlp, hk⟩ := h.exists_page hpg
  obtain ⟨hnd, hout⟩ := inv.free seg pg hpg
  have hnot : p ∉ pg.localFree := fun hin => hout p hin hp
  have hbb := hok.block_bounds hb
  have hpos := hok.pos
  have hlen : pg.localFree.length + 1 < 2^32 := by
    have h1 := blocks_length_le hnd hok.blocks
    have h2 := hok.capacity_lt
    omega
  have hk' := (hk.push (inv.ne_zero hp) hnot (by rw [hok.quiet]; exact List.not_mem_nil) hlen).setUsed
    ((pg.used + 2^32 - 1) % 2^32)
  have hhas' : lp.has seg p = true := by
    rw [LPage.has, hk.blockSize, hk.capacity]
    exact hhas
  have htag : (s.heap t).map (·.id) = some lp.heapTag := by rw [hk.heapTag, hown]
  have hrep := h.put hk'
    (p := ({ (pushLocal p (lp, ls.word)).1 with used := (pg.used + 2^32 - 1) % 2^32 },
      (pushLocal p (lp, ls.word)).2))
    (fun a q ha hq x hx => Function.update_of_ne (fun e => by
      subst e
      exact inv.notMem_other ha (.inl hmem) (by omega) hq hx) _ _)
  rw [Mimalloc.pageFree, if_pos hown, hseg]
  refine ⟨_, ?_, hrep⟩
  simp only [LState.miFree, if_neg (inv.ne_zero hp), hseg, hlp, Option.map_some, hhas', if_true,
    h.heap t, htag, ← hk.used]
  rfl

end Rep

end MyMalloc.Mimalloc
