import MyMalloc.Adaptive.Mapping
import MyMalloc.Adaptive.Runtime
import MyMalloc.Lib.Region

/- The ownership page table as a whole: what `page_maybe_owned` answers after any
   sequence of `register_region` and `unregister_region` calls.

   The table is meant to be the set of pages of the regions registered at the
   moment. `Tracks` are the runs in which it can be: regions that do not overlap,
   unregistered only while registered, each page finding a slot. Over such runs
   the table is exact for every address but those of page zero, whose key is the
   marker of an empty slot. -/
namespace MyMalloc.Adaptive

variable {τ : Type} (host : Host τ)

/-- The 4 KiB page of `a` has a byte of the region. -/
def OnPageOf (r : MyMalloc.Region) (a : Nat) : Prop := ∃ b, r.Has b ∧ b / pageSize = a / pageSize

/-- The regions registered by a sequence of calls, beside the state it leads to. -/
inductive Tracks : State τ → List MyMalloc.Region → Prop where
  | init : Tracks (initState host) []
  | register {s : State τ} {regs : List MyMalloc.Region} (r : MyMalloc.Region) (h : Tracks s regs)
      (hbase : r.base ≠ 0) (haligned : pageSize ∣ r.base) (hfits : r.base + r.size ≤ 2^64)
      (hdisjoint : ∀ r' ∈ regs, ∀ b, r.Has b → ¬ r'.Has b)
      (hroom : ∀ k ∈ regionPages r.base r.size, FindsRoom s.table r.base r.size k) :
      Tracks (registerRegion r.base r.size s) (r :: regs)
  | unregister {s : State τ} {regs : List MyMalloc.Region} (r : MyMalloc.Region) (h : Tracks s regs)
      (hmem : r ∈ regs) : Tracks (unregisterRegion r.base r.size s) (regs.erase r)

/-- `page_maybe_owned` tells the pages of the registered regions from all others. -/
def AnswersExactly (s : State τ) (regs : List MyMalloc.Region) (a : Nat) : Prop :=
  pageMaybeOwned a s = true ↔ ∃ r ∈ regs, OnPageOf r a

/-- The table holds the pages of the registered regions and nothing else. -/
structure Tabled (s : State τ) (regs : List MyMalloc.Region) : Prop where
  probed : Probed pageSlot pageTableProbe 0 pageTombstone s.table
  keys : ∀ k, IsKey 0 pageTombstone k →
    ((∃ i, s.table i = k) ↔ ∃ r ∈ regs, pageSize ∣ k ∧ r.Has k)
  region : ∀ r ∈ regs, r.base ≠ 0 ∧ pageSize ∣ r.base ∧ r.base + r.size ≤ 2^64
  disjoint : regs.Pairwise fun r r' => ∀ b, r.Has b → ¬ r'.Has b

theorem mem_pages {r : MyMalloc.Region} (h : r.base ≠ 0 ∧ pageSize ∣ r.base ∧ r.base + r.size ≤ 2^64)
    (hs : r.size ≠ 0) (k : Nat) :
    k ∈ regionPages r.base r.size ↔ pageSize ∣ k ∧ r.Has k :=
  mem_regionPages h.2.1 (Nat.pos_of_ne_zero hs) h.2.2

theorem isKey_page {r : MyMalloc.Region} (h0 : r.base ≠ 0) {k : Nat} (hk : pageSize ∣ k ∧ r.Has k) :
    IsKey 0 pageTombstone k := by
  obtain ⟨hd, hlo, -⟩ := hk
  exact isKey_of_dvd hd (by omega)

namespace Tabled
variable {s : State τ} {regs : List MyMalloc.Region} {r : MyMalloc.Region}

theorem init (host : Host τ) : Tabled (initState host) [] where
  probed := ⟨fun i hi => absurd rfl hi.1, fun i _ hi => absurd rfl hi.1⟩
  keys k hk := by
    constructor
    · rintro ⟨i, hi⟩
      exact absurd hi.symm hk.1
    · rintro ⟨r, hr, -⟩
      exact absurd hr List.not_mem_nil
  region _ hr := absurd hr List.not_mem_nil
  disjoint := .nil

theorem register (h : Tabled s regs) (hr : r.base ≠ 0 ∧ pageSize ∣ r.base ∧ r.base + r.size ≤ 2^64)
    (hdisjoint : ∀ r' ∈ regs, ∀ b, r.Has b → ¬ r'.Has b)
    (hroom : ∀ k ∈ regionPages r.base r.size, FindsRoom s.table r.base r.size k) :
    Tabled (registerRegion r.base r.size s) (r :: regs) := by
  have hregion : ∀ r' ∈ r :: regs, r'.base ≠ 0 ∧ pageSize ∣ r'.base ∧ r'.base + r'.size ≤ 2^64 :=
    fun r' hr' => (List.mem_cons.mp hr').elim (fun e => e ▸ hr) (h.region r')
  by_cases hs : r.size = 0
  · -- an empty region is not registered, and has no page
    have hempty : ∀ b, ¬ r.Has b := fun b hb => by unfold Region.Has at hb; omega
    rw [registerRegion, if_pos (.inr hs)]
    refine ⟨h.probed, fun k hk => ?_, hregion, .cons hdisjoint h.disjoint⟩
    rw [h.keys k hk]
    simp [hempty]
  · have hmem := mem_pages hr hs
    have hks : ∀ k ∈ regionPages r.base r.size, IsKey 0 pageTombstone k :=
      fun k hk => isKey_page hr.1 ((hmem k).mp hk)
    have hfresh : ∀ k ∈ regionPages r.base r.size, ∀ i, s.table i ≠ k := fun k hk i hi => by
      obtain ⟨r', hr', -, hr''⟩ := (h.keys k (hks k hk)).mp ⟨i, hi⟩
      exact hdisjoint r' hr' k ((hmem k).mp hk).2 hr''
    have hnd := regionPages_nodup r.base r.size
    obtain ⟨hp, hin⟩ := h.probed.insertAll hks hnd hfresh
    rw [registerRegion, if_neg (by simp [hr.1, hs])]
    refine ⟨hp, fun k hk => ⟨fun hi => ?_, ?_⟩, hregion, .cons hdisjoint h.disjoint⟩
    · rcases (hin k hk).2 hi with hold | hnew
      · obtain ⟨r', hr', hr''⟩ := (h.keys k hk).mp hold
        exact ⟨r', List.mem_cons_of_mem _ hr', hr''⟩
      · exact ⟨r, List.mem_cons_self, (hmem k).mp hnew⟩
    · rintro ⟨r', hr', hk'⟩
      rcases List.mem_cons.mp hr' with rfl | hr'
      · -- one of the new pages: it found a slot when its turn came
        obtain ⟨ks, ks', hsplit⟩ := List.append_of_mem ((hmem k).mpr hk')
        have hroom' := hroom k ((hmem k).mpr hk') ks ks' hsplit
        rw [hsplit] at hks hfresh hnd
        show ∃ i, (regionPages r'.base r'.size).foldl _ s.table i = k
        rw [hsplit]
        exact h.probed.insertAll_mem hks hnd hfresh hroom'
      · exact (hin k hk).1 ((h.keys k hk).mpr ⟨r', hr', hk'⟩)

theorem unregister (h : Tabled s regs) (hr : r ∈ regs) :
    Tabled (unregisterRegion r.base r.size s) (regs.erase r) := by
  have hrr := h.region r hr
  have hregion : ∀ r' ∈ regs.erase r, r'.base ≠ 0 ∧ pageSize ∣ r'.base ∧ r'.base + r'.size ≤ 2^64 :=
    fun r' hr' => h.region r' (List.mem_of_mem_erase hr')
  have hsymm : ∀ {r₁ r₂ : MyMalloc.Region}, (∀ b, r₁.Has b → ¬ r₂.Has b) → ∀ b, r₂.Has b → ¬ r₁.Has b :=
    fun h b h2 h1 => h b h1 h2
  have hsplit := (List.perm_cons_erase hr).pairwise h.disjoint hsymm
  obtain ⟨hapart, hdisjoint⟩ := List.pairwise_cons.mp hsplit
  -- the pages of the regions that stay are those of all but the pages of `r`
  have hstay : ∀ k, (∃ r' ∈ regs.erase r, pageSize ∣ k ∧ r'.Has k) ↔
      (∃ r' ∈ regs, pageSize ∣ k ∧ r'.Has k) ∧ ¬ (pageSize ∣ k ∧ r.Has k) := by
    intro k
    constructor
    · rintro ⟨r', hr', hk⟩
      exact ⟨⟨r', List.mem_of_mem_erase hr', hk⟩, fun hk' => hapart r' hr' k hk'.2 hk.2⟩
    · rintro ⟨⟨r', hr', hk⟩, hnot⟩
      have hne : r' ≠ r := by rintro rfl; exact hnot hk
      exact ⟨r', (List.mem_erase_of_ne hne).mpr hr', hk⟩
  by_cases hs : r.size = 0
  · have hempty : ∀ b, ¬ r.Has b := fun b hb => by unfold Region.Has at hb; omega
    rw [unregisterRegion, if_pos (.inr hs)]
    refine ⟨h.probed, fun k hk => ?_, hregion, hdisjoint⟩
    rw [h.keys k hk, hstay k]
    simp [hempty]
  · have hmem := mem_pages hrr hs
    obtain ⟨hp, hin⟩ := h.probed.eraseAll (by decide)
      (fun k hk => isKey_page hrr.1 ((hmem k).mp hk))
    rw [unregisterRegion, if_neg (by simp [hrr.1, hs])]
    refine ⟨hp, fun k hk => ?_, hregion, hdisjoint⟩
    rw [hin k hk, h.keys k hk, hmem k, hstay k]

end Tabled

theorem Tracks.tabled {host : Host τ} {s : State τ} {regs : List MyMalloc.Region}
    (h : Tracks host s regs) : Tabled s regs := by
  induction h with
  | init => exact Tabled.init host
  | register r _ hbase haligned hfits hdisjoint hroom ih =>
    exact ih.register ⟨hbase, haligned, hfits⟩ hdisjoint hroom
  | unregister r _ hmem ih => exact ih.unregister hmem

/-- A page with a byte of an aligned region starts in that region. -/
theorem onPageOf_iff {r : MyMalloc.Region} (hd : pageSize ∣ r.base) {a : Nat} (ha : a < 2^64) :
    OnPageOf r a ↔ r.Has (pageKey a) := by
  have hkey : pageKey a = a - a % 4096 := pageKey_eq ha
  unfold OnPageOf Region.Has pageSize at *
  constructor
  · rintro ⟨b, hb, hpage⟩
    omega
  · intro hk
    exact ⟨pageKey a, hk, by omega⟩

/-- Outside page zero the table is exact. -/
theorem Tabled.answers {s : State τ} {regs : List MyMalloc.Region} (h : Tabled s regs) {a : Nat}
    (hlo : pageSize ≤ a) (ha : a < 2^64) : AnswersExactly s regs a := by
  have hkey : pageKey a = a - a % 4096 := pageKey_eq ha
  have hd : pageSize ∣ pageKey a := by unfold pageSize; omega
  have hk : IsKey 0 pageTombstone (pageKey a) := isKey_of_dvd hd (by unfold pageSize at hlo; omega)
  have hne : a ≠ 0 := by unfold pageSize at hlo; omega
  rw [AnswersExactly, pageMaybeOwned, decide_eq_true hne, Bool.true_and, h.probed.find_iff hk,
    h.keys _ hk]
  apply exists_congr
  intro r
  apply and_congr_right
  intro hr
  rw [onPageOf_iff (h.region r hr).2.1 ha, and_iff_right hd]

theorem Tabled.not_page_zero {s : State τ} {regs : List MyMalloc.Region} (h : Tabled s regs) {a : Nat}
    (hlt : a < pageSize) : ¬ ∃ r ∈ regs, OnPageOf r a := by
  rintro ⟨r, hr, b, ⟨hlo, -⟩, hpage⟩
  obtain ⟨h0, hd, -⟩ := h.region r hr
  unfold pageSize at *
  omega

/-- On the empty table the key of page zero is found at once: an empty slot holds it. -/
theorem pageMaybeOwned_page_zero {a : Nat} (h0 : a ≠ 0) (hlt : a < pageSize) :
    pageMaybeOwned a (initState host) = true := by
  have hkey : pageKey a = 0 := by
    rw [pageKey_eq (by unfold pageSize at hlt; omega)]
    unfold pageSize at hlt
    omega
  rw [pageMaybeOwned, decide_eq_true h0, hkey]
  rfl

/-- `page_maybe_owned` is exact over all runs at null and above page zero, and only there. -/
theorem pageMaybeOwned_exact_iff (a : UInt64) :
    (∀ s regs, Tracks host s regs → AnswersExactly s regs a.toNat) ↔
      a.toNat = 0 ∨ pageSize ≤ a.toNat := by
  constructor
  · intro h
    by_contra hcon
    push Not at hcon
    exact (Tabled.init host).not_page_zero hcon.2
      ((h _ _ .init).mp (pageMaybeOwned_page_zero host hcon.1 hcon.2))
  · rintro (h0 | hlo) s regs h
    · -- the null test comes first
      refine ⟨fun ho => ?_, fun ho => absurd ho (h.tabled.not_page_zero (by rw [h0]; decide))⟩
      rw [pageMaybeOwned, h0] at ho
      exact absurd ho (by simp)
    · exact h.tabled.answers hlo a.toNat_lt

/-- A process on a kernel that refuses every mapping. -/
def barrenHost (τ : Type) : Host τ where
  cfg := initOnce ⟨none, none, none, none, none, none, none, none⟩
  token _ := 1
  token_pos _ := Nat.one_pos
  mmap _ := none
  top := 2^47
  top_le := by norm_num
  select _ _ mode := (mode, false)

/-- Address 1 is said to be owned before any region is registered. -/
theorem address_one_maybe_owned :
    Tracks (barrenHost Unit) (initState (barrenHost Unit)) [] ∧
      pageMaybeOwned 1 (initState (barrenHost Unit)) = true ∧ ¬ AnswersExactly (initState (barrenHost Unit)) [] 1 := by
  refine ⟨.init, pageMaybeOwned_page_zero (barrenHost Unit) (by decide) (by decide), fun h => ?_⟩
  exact (Tabled.init (barrenHost Unit)).not_page_zero (by decide)
    (h.mp (pageMaybeOwned_page_zero (barrenHost Unit) (by decide) (by decide)))

end MyMalloc.Adaptive
