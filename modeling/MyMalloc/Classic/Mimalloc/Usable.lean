import MyMalloc.Classic.Mimalloc.Blocks
import Mathlib.Data.List.Nodup

/- What `mi_malloc` gives for a request, in a state that keeps the invariant.

   The size arithmetic alone decides: a block of a segment has the size of its
   class, and a large block the stored size (`promised`). The lookups find that
   size again from the block's address, whatever the client's memory holds. -/
namespace MyMalloc.Mimalloc

/-! ## Size classes -/

theorem miClassIndex_lt {n : Nat} (hn : n ≤ maxSmallSize) : miClassIndex n < classCountSmall := by
  have hmax : maxSmallSize = 8192 := rfl
  have hcount : classCountSmall = 256 := rfl
  have h1 : (if n = 0 then 1 else n) ≤ maxSmallSize := by split <;> omega
  simp only [miClassIndex, if_pos h1]
  generalize (if n = 0 then 1 else n) = m
  split <;> omega

theorem miClassSize_small {c : Nat} (hc : c < classCountSmall) : miClassSize c = (c + 1) * 16 :=
  if_pos hc

/-- The class chosen covers a small request exactly up to 4096 bytes. -/
theorem le_miClassSize_iff {n : Nat} (hn : n ≤ maxSmallSize) :
    n ≤ miClassSize (miClassIndex n) ↔ n ≤ 4096 := by
  have hmax : maxSmallSize = 8192 := rfl
  have hcount : classCountSmall = 256 := rfl
  have hstep : classStepSmall = 16 := rfl
  rw [miClassSize_small (miClassIndex_lt hn)]
  have h1 : (if n = 0 then 1 else n) ≤ maxSmallSize := by split <;> omega
  simp only [miClassIndex, if_pos h1, hcount, hstep]
  by_cases h0 : n = 0
  · simp [h0]
  · simp only [if_neg h0]
    split <;> omega

/-! ## Lookup -/

variable {τ : Type} {s : State τ} {held : List Nat}

theorem mapped_of_has {r : Region} (hr : r ∈ s.regions) {a : Nat} (ha : r.Has a) :
    s.mapped a = true :=
  List.any_eq_true.mpr ⟨r, hr, decide_eq_true ha⟩

/-- All bytes of the block are mapped. -/
def Backed (p n : Nat) (s : State τ) : Prop := ∀ a, p ≤ a → a < p + n → s.mapped a = true

theorem segmentMagic_odd : ¬ 2 ∣ segmentMagic := by decide

theorem Inv.inSegment_small (inv : Inv s held) {seg p : Nat} {pg : Page}
    (hpg : s.page seg = some pg) (hb : IsBlock seg pg p) (user : Nat → Nat) :
    segmentOf p = seg ∧ inSegment user p s = some true ∧ pg.has seg p = true := by
  obtain ⟨hmem, hdvd, hok⟩ := inv.segment seg pg hpg
  obtain ⟨-, hne, htop⟩ := inv.bound _ hmem
  have hhas := inv.segment_has hpg hb
  have hseg : segmentOf p = seg := segmentOf_eq hdvd hhas.1 hhas.2 (by have := hhas.2; omega)
  have hmap : s.mapped seg = true := mapped_of_has hmem ⟨Nat.le_refl _, by simp [segmentSize]⟩
  have hw := hb.within
  have hpos := hok.pos
  refine ⟨hseg, ?_, decide_eq_true ⟨by omega, by omega, by omega⟩⟩
  rw [inSegment, hseg, if_neg hne, State.peek, if_pos hmap, hpg]
  rfl

theorem Inv.usable_small (inv : Inv s held) {seg p : Nat} {pg : Page}
    (hpg : s.page seg = some pg) (hb : IsBlock seg pg p) (user : Nat → Nat) :
    miUsableSize user p s = some pg.blockSize := by
  obtain ⟨hseg, hin, hhas⟩ := inv.inSegment_small hpg hb user
  have h0 : p ≠ 0 := by
    have := hb.within
    simp only [blockOffset] at this
    omega
  simp only [miUsableSize, if_neg h0, hin, hseg, hpg, Option.map_some, hhas, if_true]

/-- A word that is no magic number is found below a block outside the segments. -/
theorem Inv.inSegment_lone (inv : Inv s held) {r : Region} (hr : r ∈ s.regions)
    (hdvd : segmentSize ∣ r.base) (hnil : s.page r.base = none) {p : Nat} (has : r.Has p)
    {user : Nat → Nat} (huser : s.word (segmentOf p) = none → user (segmentOf p) ≠ segmentMagic) :
    inSegment user p s = some false := by
  obtain ⟨-, hne, htop⟩ := inv.bound r hr
  obtain ⟨hlo, hhi⟩ := has
  have hseg : segmentOf p = p - p % 65536 := maskOff_two_pow (k := 16) (by omega) (by decide)
  have hsize : segmentSize = 65536 := rfl
  have hin : r.Has (segmentOf p) := by
    rw [hsize] at hdvd
    exact ⟨by omega, by omega⟩
  have h0 : segmentOf p ≠ 0 := by have := hin.1; omega
  have hpage := inv.no_segment hr hnil hin
  have hw : (s.word (segmentOf p)).getD (user (segmentOf p)) ≠ segmentMagic := by
    cases hwd : s.word (segmentOf p) with
    | none => exact huser hwd
    | some w =>
      -- stored sizes are even
      have heven := (inv.word _ w hwd).2
      intro e
      exact segmentMagic_odd (e ▸ heven)
  rw [inSegment, if_neg h0, State.peek, if_pos (mapped_of_has hr hin), hpage]
  simp only [Option.isSome_none, Option.map_some, Bool.false_eq_true, if_false,
    decide_eq_false hw]

theorem segmentOf_direct {raw : Nat} (hdvd : segmentSize ∣ raw) (hlt : raw + 8 < 2^64) :
    segmentOf (raw + 8) = raw :=
  segmentOf_eq hdvd (by omega) (by simp [segmentSize]) hlt

/-- The size word is found in front of a large block, whatever the client's memory holds. -/
theorem Inv.lookup_direct (inv : Inv s held) {raw actual : Nat} {r : Region} (hr : r ∈ s.regions)
    (hbase : r.base = raw) (hlong : 8 < r.size) (hword : s.word raw = some actual)
    (hdvd : segmentSize ∣ raw) (hnil : s.page raw = none) (user : Nat → Nat) :
    inSegment user (raw + 8) s = some false ∧ s.peek user raw = some actual := by
  subst hbase
  obtain ⟨-, -, htop⟩ := inv.bound r hr
  have hseg := segmentOf_direct hdvd (by omega)
  refine ⟨inv.inSegment_lone hr hdvd hnil ⟨by omega, by omega⟩ (fun h => ?_), ?_⟩
  · rw [hseg, hword] at h
    cases h
  rw [State.peek, if_pos (mapped_of_has hr ⟨Nat.le_refl _, by omega⟩), hnil, hword]
  rfl

theorem Inv.usable_direct (inv : Inv s held) {raw actual : Nat} {r : Region} (hr : r ∈ s.regions)
    (hbase : r.base = raw) (hlong : 8 < r.size) (hword : s.word raw = some actual)
    (hdvd : segmentSize ∣ raw) (hnil : s.page raw = none) (user : Nat → Nat) :
    miUsableSize user (raw + 8) s = some actual := by
  obtain ⟨hin, hpeek⟩ := inv.lookup_direct hr hbase hlong hword hdvd hnil user
  rw [miUsableSize, if_neg (by omega), hin]
  exact hpeek

/-- The block has exactly `n` usable bytes, and they are mapped. -/
structure Serves (s : State τ) (p n : Nat) : Prop where
  usable : ∀ user, miUsableSize user p s = some n
  backed : Backed p n s

theorem Inv.serves_small (inv : Inv s held) {seg p : Nat} {pg : Page}
    (hpg : s.page seg = some pg) (hb : IsBlock seg pg p) : Serves s p pg.blockSize := by
  obtain ⟨hmem, -, hok⟩ := inv.segment seg pg hpg
  have hw := hb.within
  have := hok.fits
  refine ⟨inv.usable_small hpg hb, fun a h1 h2 => mapped_of_has hmem ⟨?_, ?_⟩⟩ <;> dsimp only <;> omega

theorem Inv.serves_direct (inv : Inv s held) {raw actual : Nat} {r : Region} (hr : r ∈ s.regions)
    (hbase : r.base = raw) (hlong : 8 < r.size) (hroom : actual + 8 ≤ r.size)
    (hword : s.word raw = some actual) (hdvd : segmentSize ∣ raw) (hnil : s.page raw = none) :
    Serves s (raw + 8) actual :=
  ⟨inv.usable_direct hr hbase hlong hword hdvd hnil,
    fun _ h1 h2 => mapped_of_has hr ⟨by omega, by omega⟩⟩

/-! ## Allocation -/

/-- Mappings stay, pages keep their owners and threads their heaps, and a new page
    is apart from all that was mapped. -/
structure Extends (s s' : State τ) : Prop where
  regions : ∀ r ∈ s.regions, r ∈ s'.regions
  page : ∀ seg pg, s.page seg = some pg → ∃ pg', s'.page seg = some pg' ∧ pg'.heapTag = pg.heapTag
  heap : ∀ t h, s.heap t = some h → ∃ h', s'.heap t = some h' ∧ h'.id = h.id
  fresh : ∀ seg, s'.page seg ≠ none → s.page seg ≠ none ∨ ∀ r ∈ s.regions, r.Apart ⟨seg, segmentSize⟩

theorem Extends.of_eq {s s' : State τ} (hregions : ∀ r ∈ s.regions, r ∈ s'.regions)
    (hpage : s'.page = s.page) (hheap : s'.heap = s.heap) : Extends s s' :=
  ⟨hregions, fun _ pg h => ⟨pg, hpage ▸ h, rfl⟩, fun _ h hh => ⟨h, hheap ▸ hh, rfl⟩,
    fun _ h => .inl (hpage ▸ h)⟩

theorem Extends.refl (s : State τ) : Extends s s := .of_eq (fun _ h => h) rfl rfl

theorem Extends.trans {s s' s'' : State τ} (h : Extends s s') (h' : Extends s' s'') :
    Extends s s'' := by
  constructor
  · exact fun r hr => h'.regions r (h.regions r hr)
  · intro seg pg hpg
    obtain ⟨pg', hpg', e⟩ := h.page seg pg hpg
    obtain ⟨pg'', hpg'', e'⟩ := h'.page seg pg' hpg'
    exact ⟨pg'', hpg'', e'.trans e⟩
  · intro t hp hh
    obtain ⟨hp', hh', e⟩ := h.heap t hp hh
    obtain ⟨hp'', hh'', e'⟩ := h'.heap t hp' hh'
    exact ⟨hp'', hh'', e'.trans e⟩
  · intro seg hseg
    rcases h'.fresh seg hseg with hs' | hapart
    · exact h.fresh seg hs'
    · exact .inr (fun r hr => hapart r (h.regions r hr))

/-- The call returns null, or a block that was not held and has exactly `n` usable bytes. -/
def Granted (s : State τ) (held : List Nat) (n : Nat) (r : Option (Option Nat × State τ)) : Prop :=
  ∃ res s', r = some (res, s') ∧ Extends s s' ∧ Inv s' (res.toList ++ held) ∧
    ∀ p, res = some p → p ∉ held ∧ Serves s' p n

theorem Granted.of_extends {s s' : State τ} {n : Nat} {r : Option (Option Nat × State τ)}
    (h : Granted s' held n r) (he : Extends s s') : Granted s held n r := by
  obtain ⟨res, s'', hr, hext, h⟩ := h
  exact ⟨res, s'', hr, he.trans hext, h⟩

variable [DecidableEq τ] {host : Host}

theorem Inv.setDirect (inv : Inv s held) (t : τ) {c seg : Nat}
    (hseg : seg ≠ 0 → ∃ pg, s.page seg = some pg ∧ pg.blockSize = miClassSize c) :
    Inv (setDirect t c seg s) held := by
  refine inv.setHeap (fun u h c' hh hc' => ?_)
  by_cases e : u = t
  · subst e
    rw [Function.update_self, Option.map_eq_some_iff] at hh
    obtain ⟨h₀, hh₀, rfl⟩ := hh
    by_cases ec : c' = c
    · subst ec
      simp only [Function.update_self] at hc' ⊢
      exact hseg hc'
    · simp only [Function.update_of_ne ec] at hc' ⊢
      exact inv.direct u h₀ c' hh₀ hc'
  · rw [Function.update_of_ne e] at hh
    exact inv.direct u h c' hh hc'

theorem extends_setDirect (t : τ) (c seg : Nat) (s : State τ) : Extends s (setDirect t c seg s) := by
  refine ⟨fun _ h => h, fun _ pg h => ⟨pg, h, rfl⟩, fun u h hh => ?_, fun _ h => .inl h⟩
  by_cases e : u = t
  · subst e
    exact ⟨{ h with pageDirect := Function.update h.pageDirect c seg },
      by simp [Mimalloc.setDirect, hh], rfl⟩
  · exact ⟨h, by simp [Mimalloc.setDirect, e, hh], rfl⟩

theorem threadInit_frame (host : Host) (t : τ) (s : State τ) :
    (threadInit host t s).regions = s.regions ∧ (threadInit host t s).page = s.page ∧
      (threadInit host t s).word = s.word := by
  unfold threadInit
  split
  · exact ⟨rfl, rfl, rfl⟩
  · split <;> exact ⟨rfl, rfl, rfl⟩

theorem threadInit_heap (hheap : ∀ k, host.heapMemory k = true) (t : τ) (s : State τ) :
    ((threadInit host t s).heap t).isSome := by
  unfold threadInit
  split
  · assumption
  · rw [if_pos (hheap _)]
    simp

theorem mmapAnswer_threadInit (host : Host) (k : Nat) (t : τ) (s : State τ) :
    mmapAnswer host k (threadInit host t s) = mmapAnswer host k s := by
  unfold threadInit
  split
  · rfl
  · split <;> rfl

theorem mmapAnswer_miInit (host : Host) (k : Nat) (t : τ) (s : State τ) :
    mmapAnswer host k (miInit host t s) = mmapAnswer host k s := by
  unfold miInit
  split
  · rfl
  · exact mmapAnswer_threadInit host k t { s with initOnce := true }

theorem extends_threadInit (host : Host) (t : τ) (s : State τ) : Extends s (threadInit host t s) := by
  unfold threadInit
  split
  · exact .refl s
  · next h =>
    split
    · refine ⟨fun _ h => h, fun _ pg h => ⟨pg, h, rfl⟩, fun u hp hh => ⟨hp, ?_, rfl⟩, fun _ h => .inl h⟩
      have e : u ≠ t := fun e => h (by rw [← e, hh]; rfl)
      simp [e, hh]
    · exact .of_eq (fun _ h => h) rfl rfl

theorem Inv.threadInit (inv : Inv s held) (host : Host) (t : τ) :
    Inv (threadInit host t s) held := by
  unfold Mimalloc.threadInit
  split
  · exact inv
  · split
    · refine inv.setHeap (fun u h c hh hc => ?_)
      by_cases e : u = t
      · subst e
        rw [Function.update_self] at hh
        obtain rfl := Option.some.inj hh
        exact absurd rfl hc
      · rw [Function.update_of_ne e] at hh
        exact inv.direct u h c hh hc
    · exact inv.setHeap inv.direct

omit [DecidableEq τ] in
theorem extends_putPage {seg : Nat} {pg pg' : Page} (hpg : s.page seg = some pg)
    (htag : pg'.heapTag = pg.heapTag) : Extends s (s.putPage seg pg') := by
  refine ⟨fun _ h => h, fun a q hq => ?_, fun _ h hh => ⟨h, hh, rfl⟩, fun a ha => .inl ?_⟩ <;>
    by_cases e : a = seg
  · subst e
    obtain rfl : pg = q := Option.some.inj (hpg.symm.trans hq)
    exact ⟨pg', Function.update_self .., htag⟩
  · exact ⟨q, (Function.update_of_ne e ..).trans hq, rfl⟩
  · rw [e, hpg]
    exact nofun
  · exact fun h => ha ((Function.update_of_ne e ..).trans h)

theorem Inv.popBlock (inv : Inv s held) (t : τ) {c seg : Nat} {pg : Page}
    (hpg : s.page seg = some pg) (hsize : pg.blockSize = miClassSize c) (hne : pg.localFree ≠ []) :
    Granted s held (miClassSize c) (popBlock t c seg s) := by
  obtain ⟨p, rest, hl⟩ := List.exists_cons_of_ne_nil hne
  obtain ⟨-, -, hok⟩ := inv.segment seg pg hpg
  obtain ⟨hnd, hout⟩ := inv.free seg pg hpg
  have hblocks := hok.blocks
  rw [hl] at hnd hout hblocks
  obtain ⟨hp, hnd⟩ := List.nodup_cons.mp hnd
  simp only [Mimalloc.popBlock, hpg, hl]
  generalize (pg.used + 1) % 2^32 = used
  generalize hpg' : { pg with localFree := rest, used := used } = pg'
  have hsize' : pg'.blockSize = pg.blockSize := by rw [← hpg']
  have hcap' : pg'.capacity = pg.capacity := by rw [← hpg']
  have hlist' : pg'.localFree = rest := by rw [← hpg']
  have hok' : PageOk seg pg' := by
    subst hpg'
    exact ⟨hok.pos, hok.fits, fun q hq => (hblocks q (List.mem_cons_of_mem _ hq)).congr rfl rfl,
      hok.quiet⟩
  have inv1 : Inv (s.putPage seg pg') held := inv.setPage hpg hsize' hcap' hok'
    ⟨hlist' ▸ hnd, fun q hq => hout q (List.mem_cons_of_mem _ (hlist' ▸ hq))⟩
  have hext : Extends s (s.putPage seg pg') := extends_putPage hpg (by rw [← hpg'])
  have hpg₁ : (s.putPage seg pg').page seg = some pg' := Function.update_self ..
  have hb : IsBlock seg pg' p := (hblocks p (List.mem_cons_self ..)).congr hsize' hcap'
  have inv2 := inv1.hold_small hpg₁ hb (hlist' ▸ hp)
  -- forgetting a full page changes neither the block nor its page
  by_cases hfull : used = pg.capacity
  · have inv3 : Inv (Mimalloc.setDirect t c 0 (s.putPage seg pg')) (p :: held) :=
      inv2.setDirect t (fun h => absurd rfl h)
    rw [if_pos hfull]
    refine ⟨some p, _, rfl, hext.trans (extends_setDirect ..), inv3, fun q hq => ?_⟩
    obtain rfl := Option.some.inj hq
    exact ⟨hout p (List.mem_cons_self ..), (hsize'.trans hsize) ▸ inv3.serves_small hpg₁ hb⟩
  · rw [if_neg hfull]
    refine ⟨some p, _, rfl, hext, inv2, fun q hq => ?_⟩
    obtain rfl := Option.some.inj hq
    exact ⟨hout p (List.mem_cons_self ..), (hsize'.trans hsize) ▸ inv2.serves_small hpg₁ hb⟩

omit [DecidableEq τ] in
theorem mmapAnswer_eq_some {size raw : Nat} (h : mmapAnswer host size s = some raw) :
    host.mmap s.mmapCalls = some raw ∧ MapFits raw size s.regions := by
  obtain ⟨h1, h2⟩ := Option.filter_eq_some_iff.mp h
  exact ⟨h1, of_decide_eq_true h2⟩

omit [DecidableEq τ] in
theorem Inv.refused (inv : Inv s held) : Inv { s with mmapCalls := s.mmapCalls + 1 } held :=
  ⟨inv.apart, inv.bound, inv.segment, inv.word, inv.direct, inv.free,
    fun p hp => (inv.placed p hp).mono (fun _ h => h) (fun _ pg h => ⟨pg, h, rfl, rfl⟩)
      (fun _ _ h => h) (fun _ _ _ h => h), inv.lone⟩

omit [DecidableEq τ] in
theorem Inv.ne_of_apart (inv : Inv s held) {seg a : Nat} {pg : Page} (hpg : s.page a = some pg)
    (hfresh : ∀ r ∈ s.regions, r.Apart ⟨seg, segmentSize⟩) : a ≠ seg := by
  rintro rfl
  have hself := hfresh _ (inv.segment a pg hpg).1
  simp only [Region.Apart, segmentSize] at hself
  omega

theorem freshPage_ok (seg tag : Nat) {size : Nat} (hpos : 0 < size) (hle : size ≤ 4096) :
    PageOk seg (freshPage seg size tag) ∧ (freshPage seg size tag).localFree.Nodup ∧
      (freshPage seg size tag).localFree ≠ [] := by
  have hspace : segmentSize - blockOffset = 65408 := rfl
  have hcap : (freshPage seg size tag).capacity = min ((segmentSize - blockOffset) / size) 65535 := rfl
  refine ⟨⟨hpos, ?_, ?_, rfl⟩, ?_, ?_⟩
  · have h1 : min ((segmentSize - blockOffset) / size) 65535 * size ≤ segmentSize - blockOffset :=
      Nat.le_trans (Nat.mul_le_mul_right _ (Nat.min_le_left ..)) (Nat.div_mul_le_self ..)
    have h2 : (freshPage seg size tag).capacity * (freshPage seg size tag).blockSize ≤
        segmentSize - blockOffset := h1
    have h3 : blockOffset = 128 := rfl
    have h4 : segmentSize = 65536 := rfl
    omega
  · intro p hp
    obtain ⟨i, hi, rfl⟩ := List.mem_map.mp hp
    exact ⟨i, List.mem_range.mp (List.mem_reverse.mp hi), rfl⟩
  · refine (List.nodup_reverse.mpr List.nodup_range).map (fun i j e => ?_)
    exact Nat.eq_of_mul_eq_mul_right hpos (Nat.add_left_cancel e)
  · have h1 : 0 < (segmentSize - blockOffset) / size := Nat.div_pos (by omega) hpos
    intro e
    have h2 := congrArg List.length e
    simp only [freshPage, List.length_map, List.length_reverse, List.length_range,
      List.length_nil] at h2
    omega

theorem miClassSize_bounds {c : Nat} (hc : c < classCountSmall) :
    0 < miClassSize c ∧ miClassSize c ≤ 4096 := by
  have hcount : classCountSmall = 256 := rfl
  rw [miClassSize_small hc]
  omega

omit [DecidableEq τ] in
/-- The aligned segment inside the mapping is apart from all that was mapped. -/
theorem segmentAlloc_cases (host : Host) (s : State τ) :
    (mmapAnswer host (2 * segmentSize) s = none ∧
      segmentAlloc host s = (none, { s with mmapCalls := s.mmapCalls + 1 })) ∨
    ∃ seg, segmentSize ∣ seg ∧ seg ≠ 0 ∧ seg + segmentSize ≤ 2^63 ∧
      (∀ r ∈ s.regions, r.Apart ⟨seg, segmentSize⟩) ∧
      segmentAlloc host s = (some seg, { s with
        mmapCalls := s.mmapCalls + 1
        regions := ⟨seg, segmentSize⟩ :: s.regions }) := by
  have hsize : segmentSize = 65536 := rfl
  unfold segmentAlloc
  cases hm : mmapAnswer host (2 * segmentSize) s with
  | none => exact .inl ⟨rfl, rfl⟩
  | some raw =>
    obtain ⟨-, -, hne, -, htop, hfresh⟩ := mmapAnswer_eq_some hm
    have hmask : maskOff (raw + segmentSize - 1) (segmentSize - 1) =
        raw + 65535 - (raw + 65535) % 65536 :=
      maskOff_two_pow (x := raw + segmentSize - 1) (k := 16) (by omega) (by decide)
    refine .inr ⟨_, ?_, ?_, ?_, fun r hr => ?_, rfl⟩ <;> rw [hmask]
    · rw [hsize]
      omega
    · omega
    · omega
    · rcases hfresh r hr with h | h
      · exact .inl (by dsimp only at h ⊢; omega)
      · exact .inr (by dsimp only at h ⊢; omega)

/-- A new segment with its page. -/
def State.addSegment (s : State τ) (seg : Nat) (pg : Page) : State τ :=
  State.putPage { s with
    mmapCalls := s.mmapCalls + 1
    regions := ⟨seg, segmentSize⟩ :: s.regions } seg pg

omit [DecidableEq τ] in
theorem addSegment_page (s : State τ) (seg : Nat) (pg : Page) :
    (s.addSegment seg pg).page seg = some pg :=
  Function.update_self ..

omit [DecidableEq τ] in
theorem Inv.addSegment (inv : Inv s held) {seg : Nat} {pg : Page} (hdvd : segmentSize ∣ seg)
    (hne : seg ≠ 0) (htop : seg + segmentSize ≤ 2^63)
    (hfresh : ∀ r ∈ s.regions, r.Apart ⟨seg, segmentSize⟩) (hok : PageOk seg pg)
    (hnd : pg.localFree.Nodup) : Inv (s.addSegment seg pg) held := by
  refine inv.addRegion ⟨by simp [segmentSize], hne, htop⟩ hfresh
    (fun a ha => Function.update_of_ne ha ..) (fun q hq => ?_) (fun _ _ => rfl)
    (fun w hw => (inv.word _ w hw).2)
  rw [Function.update_self] at hq
  obtain rfl := Option.some.inj hq
  exact ⟨rfl, hdvd, hok, hnd⟩

omit [DecidableEq τ] in
theorem Inv.extends_addSegment (inv : Inv s held) {seg : Nat} (pg : Page)
    (hfresh : ∀ r ∈ s.regions, r.Apart ⟨seg, segmentSize⟩) : Extends s (s.addSegment seg pg) := by
  refine ⟨fun _ h => List.mem_cons_of_mem _ h, fun a q hq => ⟨q, ?_, rfl⟩,
    fun _ h hh => ⟨h, hh, rfl⟩, fun a ha => ?_⟩
  · exact (Function.update_of_ne (inv.ne_of_apart hq hfresh) ..).trans hq
  · by_cases e : a = seg
    · exact .inr (e ▸ hfresh)
    · exact .inl (fun h => ha ((Function.update_of_ne e ..).trans h))

/-- `mi_page_alloc` gives a page with all its blocks free, or the kernel has refused. -/
theorem Inv.miPageAlloc (inv : Inv s held) (host : Host) (t : τ) (tag : Nat) {c : Nat}
    (hc : c < classCountSmall) :
    (mmapAnswer host (2 * segmentSize) s = none ∧
      miPageAlloc host t tag c s = (none, { s with mmapCalls := s.mmapCalls + 1 })) ∨
    ∃ seg, (∀ r ∈ s.regions, r.Apart ⟨seg, segmentSize⟩) ∧
      (freshPage seg (miClassSize c) tag).localFree ≠ [] ∧
      Inv (Mimalloc.setDirect t c seg (s.addSegment seg (freshPage seg (miClassSize c) tag))) held ∧
      miPageAlloc host t tag c s =
        (some seg, Mimalloc.setDirect t c seg (s.addSegment seg (freshPage seg (miClassSize c) tag))) := by
  unfold Mimalloc.miPageAlloc
  rcases segmentAlloc_cases host s with ⟨hm, hs⟩ | ⟨seg, hdvd, hne, htop, hfresh, hs⟩
  · rw [hs]
    exact .inl ⟨hm, rfl⟩
  · rw [hs]
    obtain ⟨hpos, hle⟩ := miClassSize_bounds hc
    obtain ⟨hok, hnd, hfull⟩ := freshPage_ok seg tag hpos hle
    have inv1 := inv.addSegment hdvd hne htop hfresh hok hnd
    exact .inr ⟨seg, hfresh, hfull,
      inv1.setDirect t (fun _ => ⟨_, addSegment_page .., rfl⟩), rfl⟩

theorem Inv.growAndPop (inv : Inv s held) (t : τ) (tag : Nat) {c : Nat}
    (hc : c < classCountSmall) : Granted s held (miClassSize c) (growAndPop host t tag c s) := by
  unfold Mimalloc.growAndPop
  rcases inv.miPageAlloc host t tag hc with ⟨-, hs⟩ | ⟨seg, hfresh, hfull, inv1, hs⟩
  · rw [hs]
    exact ⟨none, _, rfl, .of_eq (fun _ h => h) rfl rfl, inv.refused, nofun⟩
  · rw [hs]
    exact (inv1.popBlock t (addSegment_page s seg _) rfl hfull).of_extends
      ((inv.extends_addSegment _ hfresh).trans (extends_setDirect ..))

theorem Inv.smallAlloc (inv : Inv s held) (host : Host) (t : τ) {c : Nat}
    (hc : c < classCountSmall) (hheap : (s.heap t).isSome) :
    Granted s held (miClassSize c) (smallAlloc host t c s) := by
  obtain ⟨h, hh⟩ := Option.isSome_iff_exists.mp hheap
  simp only [Mimalloc.smallAlloc, hh]
  by_cases hnew : h.pageDirect c = 0 ∨ s.freeBlocks (h.pageDirect c) = []
  · rw [if_pos hnew]
    exact inv.growAndPop t h.id hc
  · obtain ⟨h0, hfree⟩ := not_or.mp hnew
    obtain ⟨pg, hpg, hsize⟩ := inv.direct t h c hh h0
    obtain ⟨-, -, hok⟩ := inv.segment _ pg hpg
    have hquiet : ((s.page (h.pageDirect c)).map (·.xthreadFree)).getD [] = [] := by
      rw [hpg]
      exact hok.quiet
    rw [if_neg hnew, if_neg (not_not.mpr hquiet)]
    refine inv.popBlock t hpg hsize (fun e => hfree ?_)
    rw [State.freeBlocks, hpg]
    exact e

omit [DecidableEq τ] in
theorem rawAlloc_cases (host : Host) (size : Nat) (s : State τ) :
    rawAlloc host size s = (none, { s with mmapCalls := s.mmapCalls + 1 }) ∨
    ∃ raw, host.mmap s.mmapCalls = some raw ∧ MapFits raw (mapSize size).val s.regions ∧
      rawAlloc host size s = (some raw, { s with
        mmapCalls := s.mmapCalls + 1
        regions := ⟨raw, (mapSize size).val⟩ :: s.regions }) := by
  unfold rawAlloc
  dsimp only
  cases hm : mmapAnswer host (mapSize size).val s with
  | none => exact .inl rfl
  | some raw =>
    obtain ⟨hcall, hfits⟩ := mmapAnswer_eq_some hm
    exact .inr ⟨raw, hcall, hfits, rfl⟩

omit [DecidableEq τ] in
theorem Inv.mapWord (inv : Inv s held) {raw size actual : Nat} (hfits : MapFits raw size s.regions)
    (heven : 2 ∣ actual) :
    s.page raw = none ∧ (∀ q ∈ held, ¬ Region.Has ⟨raw, size⟩ q) ∧
    Inv { s with
      mmapCalls := s.mmapCalls + 1
      regions := ⟨raw, size⟩ :: s.regions
      word := Function.update s.word raw (some actual) } held := by
  obtain ⟨hsize, hne, -, htop, hfresh⟩ := hfits
  have hnil : s.page raw = none := by
    by_contra hc
    obtain ⟨pg, hpg⟩ := Option.ne_none_iff_exists'.mp hc
    have hself := hfresh _ (inv.segment raw pg hpg).1
    simp only [Region.Apart, segmentSize] at hself
    omega
  refine ⟨hnil, fun q hq has => ?_, ?_⟩
  · obtain ⟨r, hr, has'⟩ := inv.placed_region (inv.placed q hq)
    exact (hfresh r hr).not_has has' has
  · refine inv.addRegion ⟨Nat.pos_of_ne_zero hsize, hne, htop⟩ hfresh (fun _ _ => rfl)
      (fun pg hpg => ?_) (fun a ha => Function.update_of_ne ha ..) (fun w hw => ?_)
    · rw [hnil] at hpg
      cases hpg
    · rw [Function.update_self] at hw
      exact Option.some.inj hw ▸ heven

theorem mapSize_pos {n : Nat} (h : (mapSize n).val ≠ 0) : 8 < (mapSize n).val := by
  have hd : 2^12 ∣ (mapSize n).val := dvd_maskOff_two_pow (k := 12) (Nat.mod_lt _ (by decide)) (by decide)
  have := Nat.le_of_dvd (Nat.pos_of_ne_zero h) hd
  omega

theorem Inv.directAlloc (inv : Inv s held) (hreg : host.Regular) (t : τ) {actual : Nat}
    (h16 : 16 ∣ actual) (hlt : actual < 2^64) : Granted s held actual (directAlloc host t actual s) := by
  have hadd : (addS actual 8).val = actual + 8 := by
    rw [addS_exact (by omega)]
    rfl
  unfold Mimalloc.directAlloc
  rcases rawAlloc_cases host (addS actual 8).val s with hr | ⟨raw, hcall, hfits, hr⟩
  · rw [hr]
    exact ⟨none, _, rfl, .of_eq (fun _ h => h) rfl rfl, inv.refused, nofun⟩
  · rw [hr]
    dsimp only
    have hdvd := hreg.aligned _ _ hcall
    have hroom : actual + 8 ≤ (mapSize (addS actual 8).val).val := by
      rcases mapSize_spec (n := (addS actual 8).val) (by omega) with ⟨-, -, h⟩ | ⟨-, -, h⟩
      · omega
      · exact absurd h hfits.1
    have hlong := mapSize_pos hfits.1
    generalize hlen : (mapSize (addS actual 8).val).val = len at hfits hroom hlong ⊢
    obtain ⟨hnil, hlone, inv1⟩ := inv.mapWord hfits (Nat.dvd_trans (by decide) h16)
    generalize hs₁ : ({ s with
      mmapCalls := s.mmapCalls + 1
      regions := ⟨raw, len⟩ :: s.regions
      word := Function.update s.word raw (some actual) } : State τ) = s₁ at inv1 ⊢
    have hmem : ⟨raw, len⟩ ∈ s₁.regions := by rw [← hs₁]; exact List.mem_cons_self ..
    have hword : s₁.word raw = some actual := by rw [← hs₁]; exact Function.update_self ..
    have hpage : s₁.page raw = none := by rw [← hs₁]; exact hnil
    have has : Region.Has ⟨raw, len⟩ (raw + 8) := ⟨by dsimp only; omega, by dsimp only; omega⟩
    have inv2 : Inv s₁ ((raw + 8) :: held) :=
      inv1.hold_lone (.direct rfl hword (hlen.symm ▸ hmem) (hlen.symm ▸ hlong) hdvd hpage) hmem hpage has
        hlone
    obtain ⟨hreg₂, hpage₂, hword₂⟩ := threadInit_frame host t s₁
    have inv3 := inv2.threadInit host t
    rw [if_pos (threadInit_heap hreg.heaps t s₁)]
    refine ⟨some (raw + 8), _, rfl, ?_, inv3, fun q hq => ?_⟩
    · refine Extends.trans ?_ (extends_threadInit host t s₁)
      rw [← hs₁]
      exact .of_eq (fun _ h => List.mem_cons_of_mem _ h) rfl rfl
    · obtain rfl := Option.some.inj hq
      refine ⟨fun h => hlone _ h has, ?_⟩
      exact inv3.serves_direct (hreg₂ ▸ hmem) rfl hlong hroom (hword₂ ▸ hword) hdvd (hpage₂ ▸ hpage)

theorem Inv.miInit (inv : Inv s held) (host : Host) (t : τ) :
    Inv (miInit host t s) held ∧ Extends s (miInit host t s) := by
  unfold Mimalloc.miInit
  split
  · exact ⟨inv, .refl s⟩
  · have inv1 : Inv { s with initOnce := true } held := inv.setHeap inv.direct
    have hext : Extends s { s with initOnce := true } := .of_eq (fun _ h => h) rfl rfl
    exact ⟨inv1.threadInit host t, hext.trans (extends_threadInit ..)⟩

/-- The usable bytes of a block for a request of `n` bytes. -/
def promised (n : Nat) : Nat :=
  if maxSmallSize < n then (largeActual n).val else miClassSize (miClassIndex n)

theorem Inv.miMalloc (inv : Inv s held) (hreg : host.Regular) (t : τ) (n : Nat) :
    Granted s held (promised n) (miMalloc host t n s) := by
  obtain ⟨inv1, hext⟩ := inv.miInit host t
  have hmax : maxSmallSize = 8192 := rfl
  unfold Mimalloc.miMalloc promised
  dsimp only
  by_cases hn : maxSmallSize < n
  · have h0 : n ≠ 0 := by omega
    rw [if_neg h0, if_pos hn, if_pos hn]
    exact (inv1.directAlloc hreg t (sixteen_dvd_largeActual n) (largeActual_lt n)).of_extends hext
  · have hle : ¬ maxSmallSize < (if n = 0 then 1 else n) := by split <;> omega
    have hclass : miClassIndex (if n = 0 then 1 else n) = miClassIndex n := by
      by_cases h0 : n = 0
      · rw [if_pos h0, h0]
        rfl
      · rw [if_neg h0]
    rw [if_neg hle, if_neg hn, hclass]
    exact ((inv1.threadInit host t).smallAlloc host t (miClassIndex_lt (by omega))
      (threadInit_heap hreg.heaps t _)).of_extends (hext.trans (extends_threadInit ..))

end MyMalloc.Mimalloc
