import MyMalloc.Classic.Ptmalloc.Tags

/- Emptying the fastbins (`malloc_consolidate`).

   The ten fastbins are taken in turn, and the chunks of each from its first on. Every
   chunk is merged with the one before it where that one is in a bin, and then with
   the top chunk or put in the unsorted bin. The merge with the chunk after it is there
   in the source but never happens: it is tried where `PREV_INUSE` of that chunk is
   clear, and the bit is set as long as the chunk before it is in a fastbin.

   So the run is one of `Cells.Joins`, and whether it leaves two free neighbours depends
   on the order of the chunks (`consolidate_merges_iff`). -/
namespace MyMalloc.Ptmalloc.Words

open Exec

variable {τ : Type}

/-- A chunk of `S`, or one in front of such a chunk. -/
def Near (S : Nat → Prop) (c n : Nat) : Prop := S c ∨ S (c + n)

/-- The chunks `S` are still to be taken: they are in no bin, and none is the top chunk. -/
structure Waiting (S : Nat → Prop) (N : Nat → Option Nat) (L : Shelf → List Nat) (top : Nat) : Prop where
  cell : ∀ c, S c → ∃ n, N c = some n
  out : ∀ c, S c → ¬ Binned L c
  top : ∀ c, S c → c ≠ top

section chunk
variable {S : Nat → Prop} {s : State τ} {k : Nat} {N : Nat → Option Nat} {L : Shelf → List Nat} {b n p : Nat}

theorem Waiting.merge {S' : Nat → Prop} {L' : Shelf → List Nat} {top top' e : Nat} (hw : Waiting S N L top)
    (hlt : b < e) (hS : ∀ c, S' c → S c ∧ (c < b ∨ e ≤ c)) (hbin : ∀ c, S' c → Binned L' c → Binned L c)
    (htop : ∀ c, S' c → c ≠ top') : Waiting S' (merge N b e) L' top' := by
  refine ⟨fun c hc => ?_, fun c hc hb => hw.out c (hS c hc).1 (hbin c hc hb), htop⟩
  obtain ⟨n, hn⟩ := hw.cell c (hS c hc).1
  exact ⟨n, (merge_of_out hlt (hS c hc).2).trans hn⟩

theorem TagsOn.consolidateChunk_run (h : TagsOn (Near S) s k N L) (hw : Waiting S N L (s.arena k).top) (hS : S p)
    (hfast : ∀ i, p ∉ L (.fast i)) :
    ∃ s' N' L', consolidateChunk k p s = some ((), s') ∧ Kept k s s' ∧
      (cellsOf N L (s.arena k).top).Join p (cellsOf N' L' (s'.arena k).top) ∧
      TagsOn (Near fun c => S c ∧ c ≠ p) s' k N' L' ∧ Waiting (fun c => S c ∧ c ≠ p) N' L' (s'.arena k).top ∧
      (∀ i, L' (.fast i) = L (.fast i)) ∧
      ∀ c, S c → c ≠ p → (∀ i, c ∉ L (.fast i)) → s'.mem (c + 16) = s.mem (c + 16) := by
  obtain ⟨n, hp⟩ := hw.cell p hS
  have hout : ∀ c, S c → (∀ i, c ∉ L (.fast i)) → ∀ sh, c ∉ L sh := by
    rintro c hc hf (i | i) hm
    · exact hf i hm
    · exact hw.out c hc ⟨i, hm⟩
  have hch := h.lists.chunk p n hp
  have hwords := h.lists.words p n hp
  obtain ⟨b, s₁, hrun, hk₁, htop₁, hoff, hfrom, hbp, hin, h₁⟩ :=
    h.mergeBackward_run (.single h.lists hp (hout p hS hfast)) (fun b m hb hend => .inr (hend ▸ hS))
  rw [Nat.add_sub_cancel_left] at hrun
  have hlt := hin.lt
  have hbd := hin.bounds h₁.lists
  have hadd : b + (p + n - b) = p + n := by omega
  have hSb : S b → b = p := by
    intro hS
    cases hfrom with
    | alone _ => rfl
    | before _ _ hbin => exact absurd hbin (hw.out b hS)
  have hfast₁ : ∀ i, without L b (.fast i) = L (.fast i) := fun i =>
    List.filter_eq_self.mpr fun c hc => decide_eq_true fun e => h.lists.from_not_fast (hfast i) hfrom (e ▸ hc)
  -- the chunk after it has its bit set
  have hset : ¬ Clear (s.mem (p + n + 8)) := by
    rw [(h.tag p n hp (.inl hS)).bit]
    exact hw.out p hS
  have hsize := chunkSize_of (hwords (p + 8) (by omega) (by omega)) (h.lists.head p n hp)
  have hav : getArenaRec k s = some (s.arena k, s) := rfl
  have hinuse : prevInuse (p + n) s = some (true, s) := by
    rw [prevInuse_of (hwords _ (by omega) (by omega)), decide_eq_true hset]
  have hprefix : ∀ r, (if (s.arena k).top = p + n then do
        let topSize ← chunkSize (s.arena k).top
        setHead b (p + n - b + topSize) prevInuseBit
        setTop k b
      else placeUnsorted k b (p + n - b) prevInuseBit : Exec (State τ) Unit) s₁ = r → consolidateChunk k p s = r := by
    rintro r rfl
    unfold consolidateChunk
    have hno : (pure false : Exec (State τ) Bool) s = some (false, s) := rfl
    have hno' : (pure !true : Exec (State τ) Bool) s = some (false, s) := rfl
    have hsame : (if false = true then mergeNext k p n (p + n) else pure n : Exec (State τ) Nat) s = some (n, s) := rfl
    rw [bind_run hsize, bind_run hav]
    split
    · refine (bind_run hno).trans ((branch_run hsame).trans ((bind_run hrun).trans ?_))
      dsimp only
      rw [hadd]
    · refine (bind_run hinuse).trans ((bind_run hno').trans ((branch_run hsame).trans ((bind_run hrun).trans ?_)))
      dsimp only
      rw [hadd]
  have hf : prevInuseBit < 8 := by decide
  have hodd : prevInuseBit % 2 = 1 := by decide
  -- the chunks that wait are none of those in hand
  have hcb : ∀ c, S c ∧ c ≠ p → c ≠ b := fun c hc e => hc.2 (e.trans (hSb (e ▸ hc.1)))
  have hwait : ∀ c, S c ∧ c ≠ p → c < b ∨ p + n ≤ c := by
    intro c hc
    obtain ⟨m, hm⟩ := hw.cell c hc.1
    have hoffp := h.lists.disjoint hp hm hc.2
    have hne := hcb c hc
    have := h.lists.chunk c m hm
    cases hfrom with
    | alone _ => omega
    | before hb hend _ =>
      have hoffb := h.lists.disjoint hb hm hne
      omega
  have hQ : ∀ c m, N c = some m → Near (fun c => S c ∧ c ≠ p) c m → c < b ∨ p + n ≤ c →
      (Near S c m ∧ c ≠ b) ∧ (c + m = b → ¬ Binned (without L b) c) := by
    intro c m hc hnear hside
    refine ⟨⟨hnear.imp And.left And.left, by omega⟩, fun hend hbc => ?_⟩
    rcases hnear with hSc | hSb'
    · exact hw.out c hSc.1 (binned_without.mp hbc).1
    · exact hcb _ hSb' hend
  have hlinks : ∀ c, S c → (∀ i, c ∉ L (.fast i)) → OffLinks (s₁.arena k).base (without L b) (c + 16) ∧
      s₁.mem (c + 16) = s.mem (c + 16) := fun c hc hcf => by
    obtain ⟨m, hm⟩ := hw.cell c hc
    have hcm := h.lists.chunk c m hm
    have hfree := hout c hc hcf
    exact ⟨h₁.lists.offLinks_inside hm (fun sh hc' => hfree sh (mem_without.mp hc').1) (by omega) (by omega),
      hoff _ (h.lists.offLinks_inside hm hfree (by omega) (by omega))⟩
  by_cases hgrow : (s.arena k).top = p + n
  · -- into the top chunk
    obtain ⟨m, hm⟩ : ∃ m, N (p + n) = some m := by
      rcases h.top with h0 | ⟨hm, -⟩
      · omega
      · exact hgrow ▸ hm
    have hQtop : Near (fun c => S c ∧ c ≠ p) b (p + n + m - b) → Near S (p + n) m ∧ p + n ≠ b := by
      rintro (hSb' | hSe)
      · exact absurd rfl (hcb b hSb')
      · rw [show b + (p + n + m - b) = p + n + m by omega] at hSe
        exact ⟨.inr hSe.1, by omega⟩
    obtain ⟨hin', hk, -, h'⟩ := h₁.grow (Q := Near fun c => S c ∧ c ≠ p) hin hf hodd (htop₁.trans hgrow) hm
      (fun c m' hc hnear hside => hQ c m' hc hnear (by omega)) hQtop
    have htop' : ((s₁.grow k b ((p + n - b + m) ||| prevInuseBit)).arena k).top = b := by
      simp only [State.grow, Function.update_self]
    have hcells : cellsOf (merge N b (p + n + m)) (without L b) b =
        ⟨merge N b (p + n + m), fun c => Binned L c ∧ c ≠ b, b⟩ := by
      unfold cellsOf
      rw [show Binned (without L b) = fun c => Binned L c ∧ c ≠ b from funext fun c => propext binned_without]
    refine ⟨_, merge N b (p + n + m), without L b, hprefix _ ?_, hk₁.trans hk, ?_, h',
      hw.merge hin'.lt (fun c hc => ⟨hc.1, ?_⟩) (fun c _ hbc => (binned_without.mp hbc).1) (htop'.symm ▸ hcb), hfast₁,
      fun c hc hne hcf => ?_⟩
    · have hm8 : s₁.mapped (p + n + 8) = true := h₁.lists.words _ m hm _ (by omega) (by omega)
      have hb8 : s₁.mapped (b + 8) = true := (hin.span h₁.lists).1 _ (by omega) (by omega)
      unfold setHead
      rw [if_pos hgrow, hgrow, bind_run (chunkSize_of hm8 (h₁.lists.head _ m hm)), bind_run (store_run hb8)]
      rfl
    · rw [htop', hcells]
      exact .grow hp hfrom hgrow hm
    · obtain ⟨j, hj⟩ := hw.cell c hc.1
      have hside := hwait c hc
      have hcj := h.lists.chunk c j hj
      have := h.lists.disjoint hm hj (hgrow ▸ hw.top c hc.1)
      omega
    · obtain ⟨j, hj⟩ := hw.cell c hc
      have hcj := h.lists.chunk c j hj
      rw [← (hlinks c hc hcf).2]
      exact Function.update_of_ne (by omega) _ _
  · -- to the unsorted bin
    have htopb : (s₁.arena k).top < b ∨ p + n ≤ (s₁.arena k).top := by
      rw [htop₁]
      have hoffp := h.top_out hp (hw.top p hS).symm
      cases hfrom with
      | alone _ => exact hoffp
      | before hb hend hbin =>
        obtain ⟨i, hi⟩ := hbin
        have hoffb := h.top_out hb (h.top_ne hi)
        omega
    obtain ⟨s', hrun', hk, htop', hrw, h'⟩ := h₁.place_run (Q := Near fun c => S c ∧ c ≠ p) hin hf hodd htopb hQ
    have hcells : cellsOf (merge N b (p + n)) (unsort (without L b) b) (s.arena k).top =
        ⟨merge N b (p + n), fun c => Binned L c ∨ c = b, (s.arena k).top⟩ := by
      unfold cellsOf
      congr
      funext c
      refine propext ?_
      by_cases hc : c = b
      · exact ⟨fun _ => .inr hc, fun _ => hc ▸ binned_unsort_self⟩
      · rw [binned_unsort hc, binned_without]
        tauto
    refine ⟨s', merge N b (p + n), unsort (without L b) b, hprefix _ ?_, hk₁.trans hk, ?_, h',
      hw.merge hlt (fun c hc => ⟨hc.1, hwait c hc⟩) (fun c hc hbc => ?_) (fun c hc => ?_), fun i => ?_,
      fun c hc hne hcf => ?_⟩
    · rw [if_neg hgrow]
      exact hrun'
    · rw [htop', htop₁, hcells]
      exact .place hp hfrom hgrow
    · exact (binned_without.mp ((binned_unsort (hcb c hc)).mp hbc)).1
    · rw [htop', htop₁]
      exact hw.top c hc.1
    · have hne : Shelf.fast i ≠ .bin unsortedBinIdx := by simp
      rw [← hfast₁ i, unsort, Function.update_of_ne hne]
    · obtain ⟨j, hj⟩ := hw.cell c hc
      have hcj := h.lists.chunk c j hj
      have hside := hin.ends h₁.lists hj (hwait c ⟨hc, hne⟩)
      have hcb := hcb c ⟨hc, hne⟩
      obtain ⟨hlink, hsame⟩ := hlinks c hc hcf
      rw [← hsame]
      exact hrw _ hlink (by omega) (by omega) (by omega) (by omega) (by omega)

end chunk

/-! ## A list, and all of them -/

section loops
variable {S : Nat → Prop} {s : State τ} {k : Nat} {N : Nat → Option Nat} {L : Shelf → List Nat}

theorem TagsOn.consolidateList_run {w : List Nat} {cur fuel : Nat} (h : TagsOn (Near S) s k N L)
    (hw : Waiting S N L (s.arena k).top) (hc : Chain 0 (fdOf s.mem) cur w) (hf : w.length < fuel)
    (hmem : ∀ c ∈ w, S c ∧ ∀ i, c ∉ L (.fast i)) :
    ∃ s' N' L', consolidateList k fuel cur s = some ((), s') ∧ Kept k s s' ∧
      (cellsOf N L (s.arena k).top).Joins w (cellsOf N' L' (s'.arena k).top) ∧
      TagsOn (Near fun c => S c ∧ c ∉ w) s' k N' L' ∧ Waiting (fun c => S c ∧ c ∉ w) N' L' (s'.arena k).top ∧
      ∀ i, L' (.fast i) = L (.fast i) := by
  -- by induction on the chunks that are left
  induction w generalizing S s N L cur fuel with
  | nil =>
    obtain rfl : cur = 0 := hc
    obtain ⟨fuel, rfl⟩ : ∃ m, fuel = m + 1 := ⟨fuel - 1, by simp at hf; omega⟩
    have hS : (fun c => S c ∧ c ∉ ([] : List Nat)) = S := by
      funext c
      simp
    rw [hS]
    exact ⟨s, N, L, rfl, .refl s, .nil, h, hw, fun i => rfl⟩
  | cons p w ih =>
    have hnd := hc.nodup
    obtain ⟨rfl, hne, htl⟩ := hc
    obtain ⟨fuel, rfl⟩ : ∃ m, fuel = m + 1 := ⟨fuel - 1, by simp at hf; omega⟩
    obtain ⟨hS, hfast⟩ := hmem cur List.mem_cons_self
    obtain ⟨n, hn⟩ := hw.cell cur hS
    have hch := h.lists.chunk cur n hn
    have hload : load (cur + 16) s = some (fdOf s.mem cur, s) :=
      load_run (h.lists.words cur n hn _ (by omega) (by omega))
    obtain ⟨s₁, N₁, L₁, hrun₁, hk₁, hjoin, h₁, hw₁, hfast₁, hlinks⟩ := h.consolidateChunk_run hw hS hfast
    have hnot := (List.nodup_cons.mp hnd).1
    have hmem' : ∀ c ∈ w, (S c ∧ c ≠ cur) ∧ ∀ i, c ∉ L₁ (.fast i) := fun c hc => by
      obtain ⟨hSc, hcf⟩ := hmem c (List.mem_cons_of_mem _ hc)
      refine ⟨⟨hSc, fun e => hnot (e ▸ hc)⟩, fun i => ?_⟩
      rw [hfast₁ i]
      exact hcf i
    have htl' : Chain 0 (fdOf s₁.mem) (fdOf s.mem cur) w := htl.congr fun c hc => by
      obtain ⟨hSc, hcf⟩ := hmem c (List.mem_cons_of_mem _ hc)
      exact hlinks c hSc (fun e => hnot (e ▸ hc)) hcf
    obtain ⟨s', N', L', hrun, hk, hjoins, h', hw', hfast'⟩ := ih h₁ hw₁ htl' (by simpa using hf) hmem'
    have hS' : (fun c => (S c ∧ c ≠ cur) ∧ c ∉ w) = fun c => S c ∧ c ∉ cur :: w := by
      funext c
      simp [and_assoc]
    rw [hS'] at h' hw'
    refine ⟨s', N', L', ?_, hk₁.trans hk, .cons hjoin hjoins, h', hw', fun i => (hfast' i).trans (hfast₁ i)⟩
    have hcur : cur ≠ 0 := by omega
    rw [consolidateList, if_neg hcur, bind_run hload, bind_run hrun₁]
    exact hrun

/-- The chunks of the fastbins from `i` on, `n` of them, in the order in which they are taken. -/
def drainFrom (L : Shelf → List Nat) (i n : Nat) : List Nat := (List.range' i n).flatMap fun j => L (.fast j)

theorem drainFrom_succ (L : Shelf → List Nat) (i n : Nat) :
    drainFrom L i (n + 1) = L (.fast i) ++ drainFrom L (i + 1) n := by
  rw [drainFrom, List.range'_succ, List.flatMap_cons, drainFrom]

theorem mem_drainFrom {c i n : Nat} : c ∈ drainFrom L i n ↔ ∃ j, i ≤ j ∧ j < i + n ∧ c ∈ L (.fast j) := by
  rw [drainFrom, List.mem_flatMap]
  refine exists_congr fun j => ?_
  rw [List.mem_range'_1, and_assoc]

/-- What `Fastbin::pop_all` leaves. -/
def State.popAll (s : State τ) (k i : Nat) : State τ := { s with
  arena := Function.update s.arena k { s.arena k with fast := Function.update (s.arena k).fast i 0 } }

theorem State.popAll_arena (s : State τ) (k i : Nat) :
    (s.popAll k i).arena k = { s.arena k with fast := Function.update (s.arena k).fast i 0 } :=
  Function.update_self ..

theorem TagsOn.popAll {P : Nat → Nat → Prop} {i : Nat} (h : TagsOn P s k N L) (hi : i < nFastbins) :
    TagsOn P (s.popAll k i) k N (Function.update L (.fast i) []) := by
  have hbin : ∀ j, Function.update L (.fast i) [] (.bin j) = L (.bin j) := fun j => by
    have hne : Shelf.bin j ≠ .fast i := nofun
    rw [Function.update_of_ne hne]
  have hmem : ∀ sh c, c ∈ Function.update L (.fast i) [] sh → c ∈ L sh := fun sh c hc => by
    rcases mem_update hc with ⟨-, hm⟩ | ⟨-, hm⟩
    · cases hm
    · exact hm
  have hbinned : ∀ c, Binned (Function.update L (.fast i) []) c ↔ Binned L c := fun c => by
    unfold Binned
    simp only [hbin]
  refine ⟨?_, h.laid, ?_, h.front, fun c n hc hP => ?_⟩
  · unfold State.Lists
    rw [State.popAll_arena]
    exact h.lists.clearFast hi
  · rw [State.popAll_arena]
    exact h.top.imp_right fun ⟨hn, hout⟩ => ⟨hn, fun sh hm => hout sh (hmem sh _ hm)⟩
  · have ht := h.tag c n hc hP
    exact ⟨ht.bit.trans (hbinned c).symm, fun hb => ht.foot ((hbinned c).mp hb)⟩

theorem TagsOn.consolidateFrom_run {i n : Nat} (hi : i + n ≤ nFastbins)
    (h : TagsOn (Near (· ∈ drainFrom L i n)) s k N L) (hw : Waiting (· ∈ drainFrom L i n) N L (s.arena k).top) :
    ∃ s' N' L', consolidateFrom k i n s = some ((), s') ∧ s'.heaps = s.heaps ∧
      (cellsOf N L (s.arena k).top).Joins (drainFrom L i n) (cellsOf N' L' (s'.arena k).top) ∧
      TagsOn (fun _ _ => False) s' k N' L' ∧
      ∀ j, L' (.fast j) = if i ≤ j ∧ j < i + n then [] else L (.fast j) := by
  -- by induction on the number of fastbins
  induction n generalizing i s N L with
  | zero =>
    refine ⟨s, N, L, rfl, rfl, .nil, h.mono fun c n _ hF => hF.elim, fun j => ?_⟩
    rw [if_neg (by omega)]
  | succ n ih =>
    have hnd := (h.lists.chain i (by omega)).nodup
    have hav : getArenaRec k s = some (s.arena k, s) := rfl
    have hpop := h.popAll (i := i) (by omega)
    have htop₁ : ((s.popAll k i).arena k).top = (s.arena k).top := by rw [State.popAll_arena]
    have hmodify : modifyArena k (fun a => { a with fast := Function.update a.fast i 0 }) s =
        some ((), s.popAll k i) := rfl
    have hout : ∀ c ∈ L (.fast i), ∀ j, c ∉ Function.update L (.fast i) [] (.fast j) := by
      intro c hc j hm
      by_cases hj : j = i
      · rw [hj, Function.update_self] at hm
        cases hm
      · rw [Function.update_of_ne fun e => hj (Shelf.fast.inj e)] at hm
        exact hj (Shelf.fast.inj (h.lists.once _ _ c hm hc))
    have hbin : ∀ c, Binned (Function.update L (.fast i) []) c → Binned L c := by
      rintro c ⟨j, hj⟩
      have hne : Shelf.bin j ≠ .fast i := nofun
      rw [Function.update_of_ne hne] at hj
      exact ⟨j, hj⟩
    have hw₁ : Waiting (· ∈ drainFrom L i (n + 1)) N (Function.update L (.fast i) [])
        ((s.popAll k i).arena k).top :=
      ⟨hw.cell, fun c hc hb => hw.out c hc (hbin c hb), fun c hc => htop₁ ▸ hw.top c hc⟩
    obtain ⟨s₂, N₂, L₂, hrun₂, hk₂, hjoins₂, h₂, hw₂, hfast₂⟩ := hpop.consolidateList_run hw₁
      (h.lists.chain i (by omega)) (h.lists.walk hnd).2
      (fun c hc => ⟨mem_drainFrom.mpr ⟨i, Nat.le_refl i, by omega, hc⟩, hout c hc⟩)
    -- what waits now is in the fastbins after this one
    have hother : ∀ j, j ≠ i → L₂ (.fast j) = L (.fast j) := fun j hj => by
      rw [hfast₂, Function.update_of_ne fun e => hj (Shelf.fast.inj e)]
    have hdrain : drainFrom L₂ (i + 1) n = drainFrom L (i + 1) n := by
      unfold drainFrom
      refine List.flatMap_congr fun j hj => hother j ?_
      have := (List.mem_range'_1.mp hj).1
      omega
    have hS : (fun c => c ∈ drainFrom L i (n + 1) ∧ c ∉ L (.fast i)) = (· ∈ drainFrom L₂ (i + 1) n) := by
      funext c
      rw [hdrain, drainFrom_succ, List.mem_append]
      refine propext ⟨fun ⟨hc, hnot⟩ => hc.resolve_left hnot, fun hc => ⟨.inr hc, fun hm => ?_⟩⟩
      obtain ⟨j, hj, -, hcj⟩ := mem_drainFrom.mp hc
      have := Shelf.fast.inj (h.lists.once _ _ c hm hcj)
      omega
    rw [hS] at h₂ hw₂
    obtain ⟨s', N', L', hrun, hheaps, hjoins, h', hfast'⟩ := ih (by omega) h₂ hw₂
    refine ⟨s', N', L', ?_, hheaps.trans hk₂.heaps, ?_, h', fun j => ?_⟩
    · rw [consolidateFrom, gets_bind, bind_run hav, bind_run hmodify, bind_run hrun₂]
      exact hrun
    · rw [drainFrom_succ, ← hdrain]
      refine MyMalloc.Cells.Joins.append ?_ hjoins
      have hcells : cellsOf N (Function.update L (.fast i) []) ((s.popAll k i).arena k).top =
          cellsOf N L (s.arena k).top := by
        have hsame : Binned (Function.update L (.fast i) []) = Binned L := funext fun c =>
          propext ⟨hbin c, fun ⟨j, hj⟩ => ⟨j, by rwa [Function.update_of_ne (nofun : Shelf.bin j ≠ .fast i)]⟩⟩
        rw [htop₁, cellsOf, hsame, cellsOf]
      rwa [hcells] at hjoins₂
    · rw [hfast' j]
      by_cases hj : j = i
      · rw [hj, if_neg (by omega), if_pos (by omega), hfast₂, Function.update_self]
      · rw [hother j hj]
        refine if_congr ?_ rfl rfl
        omega

end loops

/-! ## The result -/

/-- No two neighbours are both free: in bins, or one of them the top chunk. -/
def NoFreeNeighbours (N : Nat → Option Nat) (L : Shelf → List Nat) (top : Nat) : Prop :=
  ∀ c n m, N c = some n → N (c + n) = some m →
    ¬ ((Binned L c ∨ c = top) ∧ (Binned L (c + n) ∨ c + n = top))

/-- The chunks of the fastbins in the order in which they are taken. -/
def drainOrder (L : Shelf → List Nat) : List Nat := drainFrom L 0 nFastbins

section result
variable {s : State τ} {k : Nat} {N : Nat → Option Nat} {L : Shelf → List Nat}

theorem TagsOn.cells_ok (h : HeapsOk s k N L) : (cellsOf N L (s.arena k).top).Ok (drainOrder L) := by
  have hzero : N 0 = none := by
    cases h0 : N 0 with
    | none => rfl
    | some n =>
      have := (h.lists.chunk 0 n h0).2.2.2.1
      omega
  have hcell : ∀ c ∈ drainOrder L, ∃ n, N c = some n := fun c hc => by
    obtain ⟨j, -, -, hj⟩ := mem_drainFrom.mp hc
    exact (h.lists.listed _ c hj).2
  refine ⟨fun c n hc => ?_, h.lists.apart, fun c ⟨i, hi⟩ => (h.lists.listed _ c hi).2, fun ⟨i, hi⟩ => h.top_ne hi rfl,
    h.top.imp_right And.left, hzero, fun c hc => ⟨hcell c hc, ?_⟩, ?_⟩
  · have := (h.lists.chunk c n hc).1
    omega
  · obtain ⟨j, -, -, hj⟩ := mem_drainFrom.mp hc
    rintro (⟨i, hi⟩ | heq)
    · cases h.lists.once _ _ c hj hi
    · exact h.top_ne hj heq.symm
  · refine List.nodup_flatMap.mpr ⟨fun j _ => h.lists.nodup _, ?_⟩
    · refine List.Pairwise.imp (fun {i j} hij c hi hj => ?_) List.pairwise_lt_range'
      have := Shelf.fast.inj (h.lists.once _ _ c hi hj)
      omega

theorem TagsOn.mallocConsolidate_run (h : HeapsOk s k N L) :
    ∃ s' N' L', mallocConsolidate k s = some ((), s') ∧ s'.heaps = s.heaps ∧ TagsOn (fun _ _ => False) s' k N' L' ∧
      (∀ i, L' (.fast i) = []) ∧
      (cellsOf N L (s.arena k).top).Joins (drainOrder L) (cellsOf N' L' (s'.arena k).top) := by
  have hok := h.cells_ok
  have hw : Waiting (· ∈ drainOrder L) N L (s.arena k).top :=
    ⟨fun c hc => (hok.used c hc).1, fun c hc hb => (hok.used c hc).2 (.inl hb),
      fun c hc heq => (hok.used c hc).2 (.inr heq)⟩
  have hnear : TagsOn (Near (· ∈ drainOrder L)) s k N L := h.mono fun c n _ _ => trivial
  obtain ⟨s', N', L', hrun, hheaps, hjoins, h', hfast⟩ :=
    TagsOn.consolidateFrom_run (i := 0) (n := nFastbins) (by decide) hnear hw
  refine ⟨s', N', L', hrun, hheaps, h', fun i => ?_, hjoins⟩
  rw [hfast i]
  split
  · rfl
  · next hout =>
    refine List.eq_nil_iff_forall_not_mem.mpr fun c hc => hout ?_
    have hi : i < nFastbins := (h.lists.listed _ c hc).1
    exact ⟨Nat.zero_le i, by omega⟩

/-- From any arena whose tags are right, emptying the fastbins leaves well formed lists and tiled heaps,
    with every byte of a fastbin chunk in a bin or in the top chunk, exactly once; it leaves no two free
    neighbours exactly if the order of the chunks makes every border between free chunks go away. -/
theorem consolidate_merges_iff (h : HeapsOk s k N L) :
    ∃ s' N' L', mallocConsolidate k s = some ((), s') ∧ s'.heaps = s.heaps ∧ s'.Lists k N' L' ∧
      Laid (s'.heapsOf k) (chunks N') ∧ (∀ i, L' (.fast i) = []) ∧
      (∀ i c n, c ∈ L (.fast i) → N c = some n → ∀ a, c ≤ a → a < c + n →
        ∃! b, (Binned L' b ∨ b = (s'.arena k).top) ∧ Covers N' b a) ∧
      (NoFreeNeighbours N' L' (s'.arena k).top ↔ (cellsOf N L (s.arena k).top).AllVanish (drainOrder L)) := by
  have hok := h.cells_ok
  obtain ⟨s', N', L', hrun, hheaps, h', hfast, hjoins⟩ := h.mallocConsolidate_run
  refine ⟨s', N', L', hrun, hheaps, h'.lists, h'.laid, hfast, fun i c n hc hn a h1 h2 => ?_, hok.parted_iff hjoins⟩
  have hi : i < nFastbins := (h.lists.listed _ c hc).1
  have hmem : c ∈ drainOrder L := mem_drainFrom.mpr ⟨i, Nat.zero_le i, by omega, hc⟩
  obtain ⟨b, m, hb, hfree, hlow, hup⟩ := hok.freed hjoins hmem hn
  refine ⟨b, ⟨hfree, m, hb, by omega, by omega⟩, ?_⟩
  rintro d ⟨-, j, hd, h3, h4⟩
  exact MyMalloc.Cells.eq_of_apart (C := cellsOf N' L' (s'.arena k).top) (x := a) h'.lists.apart hd hb h3 h4 (by omega) (by omega)

end result

theorem consolidate_merges_four : ∃ s' N' L', mallocConsolidate 0 fourArena = some ((), s') ∧
    s'.heaps = [fourHeap] ∧ s'.Lists 0 N' L' ∧ Laid (s'.heapsOf 0) (chunks N') ∧ (∀ i, L' (.fast i) = []) ∧
    (∀ i c n, c ∈ fourLists (.fast i) → fourChunks c = some n → ∀ a, c ≤ a → a < c + n →
      ∃! b, (Binned L' b ∨ b = (s'.arena 0).top) ∧ Covers N' b a) ∧
    (NoFreeNeighbours N' L' (s'.arena 0).top ↔
      (cellsOf fourChunks fourLists 1048816).AllVanish (drainOrder fourLists)) :=
  consolidate_merges_iff heapsOk_four

/-- A chunk in a fastbin in front of one in a bin: both are free afterwards, and side by side. -/
theorem consolidate_leaves_neighbours : ∃ (s : State Unit) (N : Nat → Option Nat) (L : Shelf → List Nat),
    HeapsOk s 0 N L ∧ ∃ s' N' L', mallocConsolidate 0 s = some ((), s') ∧ s'.Lists 0 N' L' ∧
      Laid (s'.heapsOf 0) (chunks N') ∧ ¬ NoFreeNeighbours N' L' (s'.arena 0).top := by
  refine ⟨fourArena, fourChunks, fourLists, heapsOk_four, ?_⟩
  obtain ⟨s', N', L', hrun, -, h', -, hjoins⟩ := heapsOk_four.mallocConsolidate_run
  refine ⟨s', N', L', hrun, h'.lists, h'.laid, fun hno => ?_⟩
  have hord : drainOrder fourLists = [1048624] := by decide
  have hall := (heapsOk_four.cells_ok.parted_iff hjoins).mp hno 1048624 64 64 rfl rfl
    (.inr (.inl (by rw [hord]; decide))) (.inl (binned_four.mpr rfl))
  rw [hord] at hall
  rcases hall with ⟨hin, -⟩ | ⟨-, l, hl, hfree⟩
  · exact absurd hin (by decide)
  · -- the chunk in use keeps the border to the top chunk
    have hapart : ∀ c n, fourChunks c = some n → c < 1048752 → c + n ≤ 1048752 := fun c n hc hlt => by
      have := fourChunks_some hc
      omega
    rcases hfree _ (hl.mem_of_apart hapart (by decide) (by decide)) with hb | ⟨l₁, l₂, heq, hin⟩
    · exact absurd (binned_four.mp hb) (by decide)
    · cases l₁ with
      | nil => cases hin
      | cons x l₁ => simp at heq

end MyMalloc.Ptmalloc.Words
