import MyMalloc.Adaptive.Pools
import MyMalloc.Adaptive.Runtime

/- How many empty pages a release leaves behind.

   The locked section of `deallocate` puts the block back on its page and then
   releases pages. `release_empty_locked` goes on until no more than the limit are
   empty. A mode that gives memory back at once first tries the page of the block
   alone, and if that page has become empty the section ends there, without a look
   at the other pages of the class. They may be empty since they were freed under
   another mode (`retention_bound_iff`). -/
namespace MyMalloc.Adaptive

variable {τ : Type} {s s' s'' : State τ} {storage : StorageId} {cls pg : Nat} {gone gone' : List Nat}

/-- The pages `gone` of the class were released, each of them empty, and nothing else about the pages
has changed. -/
structure Released (storage : StorageId) (cls : Nat) (gone : List Nat) (s s' : State τ) : Prop where
  empty : ∀ pg ∈ gone, pg ∈ s.pools storage cls ∧ s.liveCount pg = 0
  pools : s'.pools = Function.update s.pools storage
    (Function.update (s.pools storage) cls ((s.pools storage cls).diff gone))
  head : ∀ l, (∀ pg ∈ gone, l ≠ .free pg) → s'.head l = s.head l
  page : s'.page = s.page
  live : s'.liveCount = s.liveCount
  next : s'.next = s.next
  hdr : s'.hdr = s.hdr

/-- The most empty pages the class may have after a release. -/
def keptLimit (action : ReleaseAction) (keep : Nat) : Nat := if action = .purge ∨ action = .unmap then 0 else keep

/-- After the locked section of `deallocate`: at most so many pages of the class are empty as the
decision allows, and the pages that left the list were empty, the others keeping their order and contents. -/
def Bounded [DecidableEq τ] (hdr pg : Nat) (storage : StorageId) (cls : Nat) (action : ReleaseAction) (keep : Nat) (s : State τ) : Prop :=
  let s' := centralFree hdr pg storage cls action keep s
  countEmpty (s'.pools storage cls) s' ≤ keptLimit action keep ∧ ∃ gone, Released storage cls gone (centralPush hdr pg s) s'

namespace Released

theorem refl (s : State τ) : Released storage cls [] s s :=
  ⟨nofun, by rw [List.diff_nil, Function.update_eq_self, Function.update_eq_self], fun _ _ => rfl, rfl, rfl, rfl, rfl⟩

theorem list_eq (h : Released storage cls gone s s') : s'.pools storage cls = (s.pools storage cls).diff gone := by
  rw [h.pools, Function.update_self, Function.update_self]

theorem cons (h : Released storage cls [pg] s s') (h' : Released storage cls gone s' s'') :
    Released storage cls (pg :: gone) s s'' where
  empty := by
    refine List.forall_mem_cons.mpr ⟨h.empty pg List.mem_cons_self, fun q hq => ?_⟩
    obtain ⟨hmem, hlive⟩ := h'.empty q hq
    rw [h.list_eq] at hmem
    exact ⟨(List.diff_sublist _ _).subset hmem, h.live ▸ hlive⟩
  pools := by
    rw [h'.pools, h.list_eq, h.pools, Function.update_idem, Function.update_self, Function.update_idem,
      List.diff_cons, List.diff_cons, List.diff_nil]
  head := by
    intro l hl
    rw [h'.head l fun q hq => hl q (List.mem_cons_of_mem _ hq), h.head l fun q hq => hl q ?_]
    rw [List.mem_singleton.mp hq]
    exact List.mem_cons_self
  page := h'.page.trans h.page
  live := h'.live.trans h.live
  next := h'.next.trans h.next
  hdr := h'.hdr.trans h.hdr

theorem stats (h : Released storage cls gone s s') (st st' : Stats) :
    Released storage cls gone { s with stats := st } { s' with stats := st' } :=
  ⟨h.empty, h.pools, h.head, h.page, h.live, h.next, h.hdr⟩

end Released

variable [DecidableEq τ]

theorem releasePage_released (hmem : pg ∈ s.pools storage cls) (hz : s.liveCount pg = 0) :
    Released storage cls [pg] s (releasePage storage cls pg s) := by
  obtain ⟨table, stats, e⟩ := releasePage_eq storage cls hz
  rw [e]
  refine ⟨List.forall_mem_singleton.mpr ⟨hmem, hz⟩, ?_, fun l hl => ?_, rfl, rfl, rfl, rfl⟩
  · rw [List.diff_cons, List.diff_nil]
  · exact Function.update_of_ne (hl pg (List.mem_singleton_self pg)) ..

theorem countEmpty_releasePage (hmem : pg ∈ s.pools storage cls) (hz : s.liveCount pg = 0) :
    countEmpty ((releasePage storage cls pg s).pools storage cls) (releasePage storage cls pg s) =
      countEmpty (s.pools storage cls) s - 1 := by
  have h := releasePage_released hmem hz
  have hempty : pg ∈ s.pools storage cls ∧ (s.liveCount pg == 0) = true := ⟨hmem, beq_iff_eq.mpr hz⟩
  rw [countEmpty, h.list_eq, h.live, List.diff_cons, List.diff_nil, List.countP_erase, if_pos hempty]
  rfl

/-- The loop of `release_empty_locked` releases `n` pages, if so many are empty. -/
theorem releaseLoop_spec (n : Nat) (s : State τ) (hn : n ≤ countEmpty (s.pools storage cls) s) :
    (∃ gone, Released storage cls gone s (releaseLoop storage cls n s)) ∧
      countEmpty ((releaseLoop storage cls n s).pools storage cls) (releaseLoop storage cls n s) =
        countEmpty (s.pools storage cls) s - n := by
  induction n generalizing s with
  | zero => exact ⟨⟨[], .refl s⟩, rfl⟩
  | succ n ih =>
    obtain ⟨pg, hfind⟩ : ∃ pg, (s.pools storage cls).find? (fun page => s.liveCount page == 0) = some pg := by
      obtain ⟨q, hq, hz⟩ := List.countP_pos_iff.mp (Nat.lt_of_lt_of_le (Nat.succ_pos n) hn)
      exact Option.isSome_iff_exists.mp (List.find?_isSome.mpr ⟨q, hq, hz⟩)
    have hmem := List.mem_of_find?_eq_some hfind
    have hz : s.liveCount pg = 0 := by simpa using List.find?_some hfind
    have hone := countEmpty_releasePage hmem hz
    obtain ⟨⟨gone, hgone⟩, hcount⟩ := ih (releasePage storage cls pg s) (by omega)
    rw [releaseLoop, hfind]
    refine ⟨⟨pg :: gone, (releasePage_released hmem hz).cons hgone⟩, ?_⟩
    dsimp only
    omega

/-- `release_empty_locked` leaves as many empty pages as it is told to keep, if there are so many. -/
theorem releaseEmpty_spec (storage : StorageId) (cls keep : Nat) (s : State τ) :
    (∃ gone, Released storage cls gone s (releaseEmpty storage cls keep s)) ∧
      countEmpty ((releaseEmpty storage cls keep s).pools storage cls) (releaseEmpty storage cls keep s) ≤ keep := by
  obtain ⟨⟨gone, hgone⟩, hcount⟩ := releaseLoop_spec (countEmpty (s.pools storage cls) s - keep)
    { s with stats := s.stats.onEmptyCounts storage (countEmpty (s.pools storage cls) s) } (Nat.sub_le _ _)
  refine ⟨⟨gone, hgone.stats s.stats _⟩, ?_⟩
  have hsame : countEmpty (s.pools storage cls) { s with
      stats := s.stats.onEmptyCounts storage (countEmpty (s.pools storage cls) s) } = countEmpty (s.pools storage cls) s := rfl
  rw [releaseEmpty]
  dsimp only at hcount ⊢
  omega

theorem releaseTargetEmpty_spec (hmem : pg ∈ s.pools storage cls) (hz : s.liveCount pg = 0) :
    Released storage cls [pg] s (releaseTargetEmpty storage cls pg s).2 ∧
      countEmpty ((releaseTargetEmpty storage cls pg s).2.pools storage cls) (releaseTargetEmpty storage cls pg s).2 =
        countEmpty (s.pools storage cls) s - 1 := by
  rw [releaseTargetEmpty, if_neg (not_or.mpr ⟨not_not.mpr hz, not_not.mpr hmem⟩)]
  exact ⟨(releasePage_released hmem hz).stats s.stats _, countEmpty_releasePage hmem hz⟩

/-- The page of the block is released alone while another page of the class is empty. -/
def LeavesOthers (hdr pg : Nat) (storage : StorageId) (cls : Nat) (action : ReleaseAction) (s : State τ) : Prop :=
  (action = .purge ∨ action = .unmap) ∧ s.liveCount pg ≤ 1 ∧ pg ∈ s.pools storage cls ∧
    ∃ pg' ∈ (s.pools storage cls).erase pg, (centralPush hdr pg s).liveCount pg' = 0

theorem centralPush_live (hdr pg : Nat) (s : State τ) : (centralPush hdr pg s).liveCount pg = 0 ↔ s.liveCount pg ≤ 1 := by
  rw [centralPush, freePush]
  dsimp only
  rw [Function.update_self]
  split <;> omega

/-- The locked section of `deallocate` keeps to its limit exactly if it does not release the page of the
block alone while another page of the class is empty. -/
theorem retention_bound_iff (hdr pg : Nat) (storage : StorageId) (cls : Nat) (action : ReleaseAction) (keep : Nat)
    (s : State τ) : Bounded hdr pg storage cls action keep s ↔ ¬ LeavesOthers hdr pg storage cls action s := by
  unfold Bounded LeavesOthers
  rw [← centralPush_live hdr, centralFree_eq]
  have hpools : (centralPush hdr pg s).pools = s.pools := rfl
  rw [← hpools]
  generalize centralPush hdr pg s = s₁
  dsimp only
  split
  · -- the page alone
    rename_i halone
    obtain ⟨hdrop, hz, hmem⟩ := halone
    obtain ⟨hgone, hcount⟩ := releaseTargetEmpty_spec hmem hz
    have hone : countEmpty ((s₁.pools storage cls).erase pg) s₁ = countEmpty (s₁.pools storage cls) s₁ - 1 := by
      have hempty : pg ∈ s₁.pools storage cls ∧ (s₁.liveCount pg == 0) = true := ⟨hmem, beq_iff_eq.mpr hz⟩
      rw [countEmpty, List.countP_erase, if_pos hempty]
      rfl
    rw [hcount, ← hone, keptLimit, if_pos hdrop, Nat.le_zero, countEmpty, List.countP_eq_zero]
    constructor
    · rintro ⟨hnone, -⟩ ⟨-, -, -, pg', hpg', hz'⟩
      exact hnone pg' hpg' (beq_iff_eq.mpr hz')
    · intro hno
      exact ⟨fun pg' hpg' hz' => hno ⟨hdrop, hz, hmem, pg', hpg', beq_iff_eq.mp hz'⟩, [pg], hgone⟩
  · rename_i hmore
    obtain ⟨hgone, hcount⟩ := releaseEmpty_spec storage cls (keptLimit action keep) s₁
    exact iff_of_true ⟨hcount, hgone⟩ fun ⟨hdrop, hz, hmem, _⟩ => hmore ⟨hdrop, hz, hmem⟩

/-- One thread without any settings, to which the kernel always gives memory. -/
def growingHost : Host Unit where
  cfg := initOnce ⟨none, none, none, none, none, none, none, none⟩
  token _ := 1
  token_pos _ := Nat.one_pos
  mmap k := some ((k + 1) * 2^20)
  top := 2^40
  top_le := Host.low_top
  select _ _ m := (m, false)

/-- Three blocks fill a page in the balanced mode, a fourth takes another one in the mode of the smallest
footprint; then the three are freed, and their page is kept. -/
def fourBlocks : List Call :=
  [.malloc 65536, .malloc 65536, .malloc 65536, .setMode 3, .malloc 65536,
    .free (some ⟨1048752, 65536, 16⟩), .free (some ⟨1114400, 65536, 16⟩), .free (some ⟨1180048, 65536, 16⟩)]

/-- When the fourth is freed its page is released, and the other one stays, empty. -/
theorem empty_page_left : ∃ s s' : State Unit, Reached growingHost ⟨s, fun _ => none⟩ ∧
    ¬ Bounded 2228512 2097152 .span 62 .purge 0 s ∧
    (system growingHost).calls () [.free (some ⟨2228624, 65536, 16⟩)] s = some s' ∧
    s'.pools .span 62 = [1048576] ∧ s'.liveCount 1048576 = 0 := by
  have hrun : (((system growingHost).calls () fourBlocks (initState growingHost)).bind fun s =>
      ((system growingHost).calls () [.free (some ⟨2228624, 65536, 16⟩)] s).map fun s' =>
        (countEmpty ((centralFree 2228512 2097152 .span 62 .purge 0 s).pools .span 62)
          (centralFree 2228512 2097152 .span 62 .purge 0 s), s'.pools .span 62, s'.liveCount 1048576)) =
      some (1, [1048576], 0) := by
    decide +kernel
  obtain ⟨s, hs, hrun⟩ := Option.bind_eq_some_iff.mp hrun
  obtain ⟨s', hs', hrun⟩ := Option.map_eq_some_iff.mp hrun
  simp only [Prod.mk.injEq] at hrun
  obtain ⟨hcount, hpools, hlive⟩ := hrun
  refine ⟨s, s', Reachable.calls .init rfl (fun _ _ => trivial) hs, fun h => ?_, hs', hpools, hlive⟩
  have hle := h.1
  rw [hcount] at hle
  exact absurd hle (by decide)

end MyMalloc.Adaptive
