import MyMalloc.Classic.Mimalloc.LinkedHeap

/- Runs of small requests on one thread.

   `Solo` completes the invariant of the blocks: all pages are the thread's own, no
   block is mapped outside a segment, and a page counts its blocks. The state in
   memory represents a state with lists that keeps both (`Sound`), whatever the
   thread allocates, frees and writes into its blocks; so the decoded free lists are
   what the counters say, and `mi_malloc` hands out only blocks that are not live
   (`SmallRun.sound`). -/
namespace MyMalloc.Mimalloc

variable {τ : Type} {s s' : State τ} {ls ls' : LState τ} {held live : List Nat} {host : Host} {t : τ}

/-! ## The pages of one thread -/

/-- Every page is the thread's own and counts its blocks, and every mapping is a segment. -/
structure Solo (s : State τ) (t : τ) : Prop where
  page : ∀ seg pg, s.page seg = some pg →
    (s.heap t).map (·.id) = some pg.heapTag ∧ pg.used + pg.localFree.length = pg.capacity
  region : ∀ r ∈ s.regions, (s.page r.base).isSome

namespace Solo

variable (h : Solo s t)
include h

theorem putPage {seg : Nat} {pg : Page}
    (hown : (s.heap t).map (·.id) = some pg.heapTag)
    (hcount : pg.used + pg.localFree.length = pg.capacity) : Solo (s.putPage seg pg) t := by
  refine ⟨fun a q hq => ?_, fun r hr => ?_⟩
  · by_cases e : a = seg
    · subst e
      obtain rfl : pg = q := Option.some.inj ((Function.update_self a _ _).symm.trans hq)
      exact ⟨hown, hcount⟩
    · exact h.page a q ((Function.update_of_ne e ..).symm.trans hq)
  · by_cases e : r.base = seg
    · simp [State.putPage, e]
    · simpa [State.putPage, e] using h.region r hr

theorem addSegment {seg : Nat} {pg : Page}
    (hown : (s.heap t).map (·.id) = some pg.heapTag)
    (hcount : pg.used + pg.localFree.length = pg.capacity) : Solo (s.addSegment seg pg) t := by
  have h1 : Solo (s.putPage seg pg) t := h.putPage hown hcount
  refine ⟨h1.page, List.forall_mem_cons.mpr ⟨?_, h1.region⟩⟩
  rw [addSegment_page]
  rfl

/-- All blocks of a page are held or free, so a page with a held block is in use. -/
theorem used_pos (inv : Inv s held) {seg p : Nat} {pg : Page}
    (hpg : s.page seg = some pg) (hb : IsBlock seg pg p) (hp : p ∈ held) : 0 < pg.used := by
  obtain ⟨-, -, hok⟩ := inv.segment seg pg hpg
  obtain ⟨hnd, hout⟩ := inv.free seg pg hpg
  have hle := blocks_length_le (List.nodup_cons.mpr ⟨fun hin => hout p hin hp, hnd⟩)
    (List.forall_mem_cons.mpr ⟨hb, hok.blocks⟩)
  have hcount := (h.page seg pg hpg).2
  rw [List.length_cons] at hle
  omega

theorem pageFree (inv : Inv s held) {seg p : Nat} {pg : Page}
    (hpg : s.page seg = some pg) (hb : IsBlock seg pg p) (hp : p ∈ held) :
    Solo (pageFree t p pg s) t := by
  obtain ⟨hown, hcount⟩ := h.page seg pg hpg
  have hpos := h.used_pos inv hpg hb hp
  have hcap := (inv.segment seg pg hpg).2.2.capacity_lt
  rw [Mimalloc.pageFree, if_pos hown]
  refine h.putPage hown ?_
  simp only [List.length_cons]
  omega

theorem small (inv : Inv s held) {p : Nat} (hp : p ∈ held) :
    ∃ seg pg, s.page seg = some pg ∧ IsBlock seg pg p := by
  cases inv.placed p hp with
  | small hpg hb => exact ⟨_, _, hpg, hb⟩
  | direct _ _ hr _ _ hnil =>
    have := h.region _ hr
    rw [hnil] at this
    cases this
  | aligned hr _ hnil _ _ =>
    have := h.region _ hr
    rw [hnil] at this
    cases this

variable [DecidableEq τ]

theorem setDirect (c seg : Nat) : Solo (setDirect t c seg s) t := by
  refine ⟨fun a q hq => ?_, h.region⟩
  have hid : ((Mimalloc.setDirect t c seg s).heap t).map (·.id) = (s.heap t).map (·.id) := by
    simp only [Mimalloc.setDirect, Function.update_self, Option.map_map]
    rfl
  rw [hid]
  exact h.page a q hq

theorem threadInit (host : Host) : Solo (threadInit host t s) t := by
  unfold Mimalloc.threadInit
  split
  · exact h
  · next hnone =>
    -- a thread without a heap has no pages
    have hempty : ∀ seg pg, s.page seg ≠ some pg := fun seg pg hpg => by
      have := (h.page seg pg hpg).1
      rw [Option.not_isSome_iff_eq_none.mp hnone] at this
      cases this
    split <;> exact ⟨fun seg pg hpg => absurd hpg (hempty seg pg), h.region⟩

theorem miInit (host : Host) : Solo (miInit host t s) t := by
  unfold Mimalloc.miInit
  split
  · exact h
  · exact threadInit (s := { s with initOnce := true }) ⟨h.page, h.region⟩ host

theorem popBlock (inv : Inv s held) {c seg : Nat} {r : Option Nat}
    (hpop : popBlock t c seg s = some (r, s')) : Solo s' t ∧ r ≠ none := by
  unfold Mimalloc.popBlock at hpop
  cases hpg : s.page seg with
  | none => rw [hpg] at hpop; cases hpop
  | some pg =>
    obtain ⟨hown, hcount⟩ := h.page seg pg hpg
    have hcap := (inv.segment seg pg hpg).2.2.capacity_lt
    simp only [hpg] at hpop
    split at hpop
    · cases hpop
    · next b rest hl =>
      rw [hl, List.length_cons] at hcount
      obtain ⟨rfl, rfl⟩ := Prod.mk.inj (Option.some.inj hpop)
      have h1 : Solo (s.putPage seg { pg with localFree := rest, used := (pg.used + 1) % 2^32 }) t :=
        h.putPage hown (by dsimp only; omega)
      refine ⟨?_, nofun⟩
      split
      · exact h1.setDirect c 0
      · exact h1

/-- Null is given only if the kernel refuses a segment. -/
theorem growAndPop (inv : Inv s held) {hp : Heap} (hh : s.heap t = some hp) {c : Nat}
    (hc : c < classCountSmall) {r : Option Nat} (hgrow : growAndPop host t hp.id c s = some (r, s')) :
    Solo s' t ∧ (r = none → mmapAnswer host (2 * segmentSize) s = none) := by
  unfold Mimalloc.growAndPop at hgrow
  rcases inv.miPageAlloc host t hp.id hc with ⟨hm, hs⟩ | ⟨seg, -, -, inv1, hs⟩
  · rw [hs] at hgrow
    obtain ⟨rfl, rfl⟩ := Prod.mk.inj (Option.some.inj hgrow)
    exact ⟨⟨h.page, h.region⟩, fun _ => hm⟩
  · rw [hs] at hgrow
    have h1 : Solo (s.addSegment seg (freshPage seg (miClassSize c) hp.id)) t :=
      h.addSegment (by rw [hh]; rfl) (by simp [freshPage])
    obtain ⟨h2, hr⟩ := (h1.setDirect c seg).popBlock inv1 hgrow
    exact ⟨h2, fun e => absurd e hr⟩

theorem smallAlloc (inv : Inv s held) {c : Nat} (hc : c < classCountSmall)
    {r : Option Nat} (hsmall : smallAlloc host t c s = some (r, s')) :
    Solo s' t ∧ (r = none → mmapAnswer host (2 * segmentSize) s = none) := by
  unfold Mimalloc.smallAlloc at hsmall
  cases hh : s.heap t with
  | none => rw [hh] at hsmall; cases hsmall
  | some hp =>
    simp only [hh] at hsmall
    split at hsmall
    · exact h.growAndPop inv hh hc hsmall
    · split at hsmall
      · cases hsmall
      · obtain ⟨h1, hr⟩ := h.popBlock inv hsmall
        exact ⟨h1, fun e => absurd e hr⟩

end Solo

/-! ## What the state in memory represents -/

theorem IsBlock.apart {seg p q : Nat} {pg : Page} (hp : IsBlock seg pg p) (hq : IsBlock seg pg q)
    (hne : p ≠ q) : p + pg.blockSize ≤ q ∨ q + pg.blockSize ≤ p := by
  obtain ⟨i, -, rfl⟩ := hp
  obtain ⟨j, -, rfl⟩ := hq
  rcases Nat.lt_trichotomy i j with hij | rfl | hij
  · have := Nat.mul_le_mul_right pg.blockSize (show i + 1 ≤ j from hij)
    rw [Nat.add_mul, Nat.one_mul] at this
    exact .inl (by omega)
  · exact absurd rfl hne
  · have := Nat.mul_le_mul_right pg.blockSize (show j + 1 ≤ i from hij)
    rw [Nat.add_mul, Nat.one_mul] at this
    exact .inr (by omega)

theorem Inv.blocks_apart (inv : Inv s held) {seg seg' p q : Nat} {pg pg' : Page}
    (hpg : s.page seg = some pg) (hp : IsBlock seg pg p) (hpg' : s.page seg' = some pg')
    (hq : IsBlock seg' pg' q) (hne : p ≠ q) : p + pg.blockSize ≤ q ∨ q + pg'.blockSize ≤ p := by
  obtain ⟨hmem, -, hok⟩ := inv.segment seg pg hpg
  obtain ⟨hmem', -, hok'⟩ := inv.segment seg' pg' hpg'
  by_cases e : seg = seg'
  · subst e
    obtain rfl : pg = pg' := Option.some.inj (hpg.symm.trans hpg')
    exact hp.apart hq hne
  · have h1 := hok.block_bounds hp
    have h2 := hok'.block_bounds hq
    rcases inv.region_apart hmem hmem' (fun h => e (congrArg Region.base h)) with h | h
    · exact .inl (by dsimp only at h; omega)
    · exact .inr (by dsimp only at h; omega)

/-- The state in memory represents a state with lists that keeps the invariants. -/
structure Sound (t : τ) (ls : LState τ) (live : List Nat) (s : State τ) : Prop where
  rep : Rep ls s
  inv : Inv s live
  solo : Solo s t
  nodup : live.Nodup

namespace Sound

theorem start (t : τ) (word : Words) : Sound t (LState.start τ word) [] (State.start τ) :=
  ⟨⟨rfl, fun _ => .none⟩, inv_start, ⟨nofun, nofun⟩, .nil⟩

theorem free (h : Sound t ls live s) {p : Nat} (hp : p ∈ live) :
    ∃ ls' s', LState.miFree t p ls = some ls' ∧ Sound t ls' (live.filter (· ≠ p)) s' := by
  obtain ⟨seg, pg, hpg, hb⟩ := h.solo.small h.inv hp
  obtain ⟨hown, -⟩ := h.solo.page seg pg hpg
  obtain ⟨hseg, -, -⟩ := h.inv.inSegment_small hpg hb (fun _ => 0)
  obtain ⟨ls', hfree, hrep⟩ := h.rep.pageFree h.inv hpg hb hp hown
  have howns : Owns s t p := fun q hq => by
    rw [hseg] at hq
    obtain rfl : pg = q := Option.some.inj (hpg.symm.trans hq)
    exact hown
  exact ⟨ls', _, hfree, hrep, h.inv.pageFree hpg hb hseg hp howns, h.solo.pageFree h.inv hpg hb hp,
    h.nodup.filter _⟩

theorem write (h : Sound t ls live s) {p : Nat} (hp : p ∈ live) (f : Words) :
    Sound t (LState.write p f ls) live s := by
  obtain ⟨seg, pg, hpg, hb⟩ := h.solo.small h.inv hp
  obtain ⟨hseg, -, -⟩ := h.inv.inSegment_small hpg hb (fun _ => 0)
  obtain ⟨lp, hlp, hk⟩ := h.rep.exists_page hpg
  refine ⟨h.rep.setWord (fun a q hq b hbq => if_neg (fun hin => ?_)), h.inv, h.solo, h.nodup⟩
  obtain ⟨-, -, hok⟩ := h.inv.segment a q hq
  rw [hok.quiet, List.append_nil] at hbq
  simp only [hseg, hlp, Option.map_some, Option.getD_some, hk.blockSize] at hin
  have hne : p ≠ b := fun e => (h.inv.free a q hq).2 b hbq (e ▸ hp)
  have hpos := hok.pos
  rcases h.inv.blocks_apart hpg hb hq (hok.blocks b hbq) hne with h | h <;> omega

variable [DecidableEq τ]

/-- A small request gives a block that is not live, or null if the kernel refuses a segment. -/
theorem malloc (h : Sound t ls live s) (hheap : ∀ k, host.heapMemory k = true) (fuel : Nat) {n : Nat}
    (hn : n ≤ maxSmallSize) :
    ∃ r ls' s', LState.miMalloc host fuel t n ls = some (r, ls') ∧ Sound t ls' (r.toList ++ live) s' ∧
      (∀ p, r = some p → p ∉ live) ∧ (r = none → mmapAnswer host (2 * segmentSize) ls.shell = none) := by
  have inv1 := (h.inv.miInit host t).1.threadInit host t
  have hrep := (h.rep.miInit host t).threadInit host t
  have hsolo := (h.solo.miInit host).threadInit host
  have hc : miClassIndex (if n = 0 then 1 else n) < classCountSmall :=
    miClassIndex_lt (by have : maxSmallSize = 8192 := rfl; split <;> omega)
  obtain ⟨r, s', hs, -, inv2, hnew⟩ :=
    inv1.smallAlloc host t hc (threadInit_heap hheap t _)
  obtain ⟨ls', hl, hrep'⟩ := hrep.smallAlloc inv1 fuel t hc hs
  obtain ⟨hsolo', hnull⟩ := hsolo.smallAlloc inv1 hc hs
  refine ⟨r, ls', s', hl, ⟨hrep', inv2, hsolo', ?_⟩, fun p hp => (hnew p hp).1, fun e => ?_⟩
  · cases r with
    | none => exact h.nodup
    | some p => exact List.nodup_cons.mpr ⟨(hnew p rfl).1, h.nodup⟩
  · have := hnull e
    rw [mmapAnswer_threadInit, mmapAnswer_miInit] at this
    rw [h.rep.shell]
    exact this

end Sound

/-! ## Runs -/

/-- What is said of a page: following the decoded links from `local_free` visits `local_count`
    blocks, none twice and none live; the counters make up the capacity; and the blocks lie behind
    the headers of the aligned segment. -/
structure PageSound (ls : LState τ) (live : List Nat) (seg : Nat) (pg : LPage) : Prop where
  free : ∃ l, Chain 0 (pg.next ls.word) pg.localFree l ∧ l.length = pg.localCount ∧ l.Nodup ∧
    ∀ b ∈ l, pg.IsBlock seg b ∧ b ∉ live
  count : pg.used + pg.localCount = pg.capacity
  aligned : segmentSize ∣ seg
  inside : ∀ b, pg.IsBlock seg b → seg + blockOffset ≤ b ∧ b + pg.blockSize ≤ seg + segmentSize

/-- All pages are sound, and the live blocks are distinct and disjoint blocks of pages. -/
structure HeapSound (ls : LState τ) (live : List Nat) : Prop where
  pages : ∀ seg pg, ls.page seg = some pg → PageSound ls live seg pg
  nodup : live.Nodup
  placed : ∀ p ∈ live, ∃ seg pg, ls.page seg = some pg ∧ pg.IsBlock seg p
  disjoint : ∀ p ∈ live, ∀ q ∈ live, p ≠ q → ∀ seg pg seg' pg', ls.page seg = some pg →
    pg.IsBlock seg p → ls.page seg' = some pg' → pg'.IsBlock seg' q →
    p + pg.blockSize ≤ q ∨ q + pg'.blockSize ≤ p

theorem Linked.isBlock {seg : Nat} {word : Words} {lp : LPage} {pg : Page}
    (h : Linked seg word lp pg) (p : Nat) : lp.IsBlock seg p ↔ IsBlock seg pg p := by
  rw [LPage.IsBlock, IsBlock, h.capacity, h.blockSize]

theorem Sound.pageSound (h : Sound t ls live s) {seg : Nat} {lp : LPage}
    (hlp : ls.page seg = some lp) : PageSound ls live seg lp := by
  obtain ⟨pg, hpg, hk⟩ := h.rep.exists_list hlp
  obtain ⟨-, hdvd, hok⟩ := h.inv.segment seg pg hpg
  obtain ⟨hnd, hout⟩ := h.inv.free seg pg hpg
  obtain ⟨-, hcount⟩ := h.solo.page seg pg hpg
  refine ⟨⟨pg.localFree, hk.free, hk.count.symm, hnd, fun b hb => ?_⟩, ?_, hdvd, fun b hb => ?_⟩
  · exact ⟨(hk.isBlock b).mpr (hok.blocks b hb), hout b hb⟩
  · rw [hk.used, hk.count, hk.capacity, hcount]
  · rw [hk.blockSize]
    exact hok.block_bounds ((hk.isBlock b).mp hb)

theorem Sound.heapSound (h : Sound t ls live s) : HeapSound ls live := by
  refine ⟨fun seg lp hlp => h.pageSound hlp, h.nodup, fun p hp => ?_, ?_⟩
  · obtain ⟨seg, pg, hpg, hb⟩ := h.solo.small h.inv hp
    obtain ⟨lp, hlp, hk⟩ := h.rep.exists_page hpg
    exact ⟨seg, lp, hlp, (hk.isBlock p).mpr hb⟩
  · intro p _ q _ hne seg lp seg' lp' hlp hp hlp' hq
    obtain ⟨pg, hpg, hk⟩ := h.rep.exists_list hlp
    obtain ⟨pg', hpg', hk'⟩ := h.rep.exists_list hlp'
    rw [hk.blockSize, hk'.blockSize]
    exact h.inv.blocks_apart hpg ((hk.isBlock p).mp hp) hpg' ((hk'.isBlock q).mp hq) hne

variable [DecidableEq τ]

/-- The states a thread reaches that makes small requests only, frees what is live, and writes
    what it likes into its blocks; `live` are the blocks it has. -/
inductive SmallRun (host : Host) (fuel : Nat) (t : τ) : LState τ → List Nat → Prop where
  | start (word : Words) : SmallRun host fuel t (LState.start τ word) []
  | malloc {ls ls' : LState τ} {live : List Nat} {n : Nat} {r : Option Nat}
      (h : SmallRun host fuel t ls live) (small : n ≤ maxSmallSize)
      (exec : LState.miMalloc host fuel t n ls = some (r, ls')) :
      SmallRun host fuel t ls' (r.toList ++ live)
  | free {ls ls' : LState τ} {live : List Nat} {p : Nat} (h : SmallRun host fuel t ls live)
      (legal : p ∈ live) (exec : LState.miFree t p ls = some ls') :
      SmallRun host fuel t ls' (live.filter (· ≠ p))
  | write {ls : LState τ} {live : List Nat} {p : Nat} (h : SmallRun host fuel t ls live)
      (legal : p ∈ live) (f : Words) : SmallRun host fuel t (LState.write p f ls) live

theorem SmallRun.sound (hheap : ∀ k, host.heapMemory k = true) {fuel : Nat}
    (h : SmallRun host fuel t ls live) : ∃ s, Sound t ls live s := by
  induction h with
  | start word => exact ⟨_, .start t word⟩
  | malloc _ small exec ih =>
    obtain ⟨s, hs⟩ := ih
    obtain ⟨r, ls', s', hm, hs', -⟩ := hs.malloc hheap fuel small
    obtain ⟨rfl, rfl⟩ := Prod.mk.inj (Option.some.inj (hm.symm.trans exec))
    exact ⟨s', hs'⟩
  | free _ legal exec ih =>
    obtain ⟨s, hs⟩ := ih
    obtain ⟨ls', s', hf, hs'⟩ := hs.free legal
    obtain rfl := Option.some.inj (hf.symm.trans exec)
    exact ⟨s', hs'⟩
  | write _ legal f ih =>
    obtain ⟨s, hs⟩ := ih
    exact ⟨s, hs.write legal f⟩

/-- In every run of small requests on one thread the heap is sound, a request returns null only
    if the kernel refuses a segment and else a block of a page that is not live, and a live block
    can be freed. Blocks are those of the pages, as long as `mi_usable_size` says. -/
theorem small_run_heapSound (host : Host) (hheap : ∀ k, host.heapMemory k = true) (fuel : Nat) (t : τ)
    (ls : LState τ) (live : List Nat) (h : SmallRun host fuel t ls live) :
    HeapSound ls live ∧
    (∀ n, n ≤ maxSmallSize → ∃ r ls', LState.miMalloc host fuel t n ls = some (r, ls') ∧
      HeapSound ls' (r.toList ++ live) ∧ (∀ p, r = some p → p ∉ live) ∧
      (r = none → mmapAnswer host (2 * segmentSize) ls.shell = none)) ∧
    ∀ p ∈ live, ∃ ls', LState.miFree t p ls = some ls' ∧ HeapSound ls' (live.filter (· ≠ p)) := by
  obtain ⟨s, hs⟩ := h.sound hheap
  refine ⟨hs.heapSound, fun n hn => ?_, fun p hp => ?_⟩
  · obtain ⟨r, ls', s', hm, hs', hnew, hnull⟩ := hs.malloc hheap fuel hn
    exact ⟨r, ls', hm, hs'.heapSound, hnew, hnull⟩
  · obtain ⟨ls', s', hf, hs'⟩ := hs.free hp
    exact ⟨ls', hf, hs'.heapSound⟩

/-- A block is allocated and written, freed and allocated again. -/
theorem reused_block_heapSound :
    let host : Host := ⟨fun _ => some 1048576, fun _ => true⟩
    ∃ (ls ls₁ : LState Unit) (r : Option Nat), SmallRun host 0 () ls [] ∧
      LState.miMalloc host 0 () 5000 ls = some (r, ls₁) ∧ HeapSound ls₁ r.toList := by
  intro host
  have h1 : SmallRun host 0 () _ [1106048] :=
    (SmallRun.start (fun _ => 0)).malloc (n := 4096) (r := some 1106048) (by decide) rfl
  have h2 := h1.write (p := 1106048) (by decide) (fun a => a)
  obtain ⟨ls, hfree, -⟩ := (small_run_heapSound host (fun _ => rfl) 0 () _ _ h2).2.2 1106048 (by decide)
  have h3 : SmallRun host 0 () ls [] := h2.free (by decide) hfree
  obtain ⟨r, ls₁, hm, hs, -⟩ :=
    (small_run_heapSound host (fun _ => rfl) 0 () _ _ h3).2.1 5000 (by decide)
  exact ⟨ls, ls₁, r, h3, hm, by simpa using hs⟩

end MyMalloc.Mimalloc
