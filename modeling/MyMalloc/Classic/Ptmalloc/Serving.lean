import MyMalloc.Classic.Ptmalloc.Carving

/- How a request is served by a tcache or a top chunk.

   `Serves` is the condition on the state a request meets: the thread's tcache has a
   chunk of the size, or the arena the call will use has a top chunk that is large
   enough, or none yet. Under it `pt_malloc` has a result, keeps the invariant, and
   gives out a block that was no one's; `Outcome` says what else stays. -/
namespace MyMalloc.Ptmalloc.Words

open Exec

variable {τ : Type}

/-! ## When a request is served -/

/-- The size in the header of the chunk at `c`. -/
def State.sizeAt (s : State τ) (c : Nat) : Nat := sizeBits (s.mem (c + 8))

/-- The tcache of `t` has a chunk for `nb` bytes. -/
def Cached (s : State τ) (t : τ) (nb : Nat) : Prop := binHead (s.tcache t) (csize2tidx nb) ≠ 0

/-- The top chunk of arena `k` has `nb` bytes, and `slack` more, or there is none. -/
def TopServes (slack : Nat) (s : State τ) (k nb : Nat) : Prop :=
  (s.arena k).top = 0 ∨ nb + slack ≤ s.sizeAt (s.arena k).top

/-- There is room and memory for one more arena. -/
def FreshServes (host : Host) (s : State τ) : Prop :=
  s.narenas < maxArenas ∧ (mmapAnswer host (pageRound arenaSize) s).isSome

/-- The arena that a call by `t` will use is not blocked and serves the request. A thread without
    an arena gets a new one for a small request, and the main arena for others. -/
def ArenaServes (slack : Nat) (host : Host) (s : State τ) (t : τ) (nb : Nat) : Prop :=
  match s.threadArena t, s.mainLocked with
  | some (k + 1), _ => TopServes slack s (k + 1) nb
  | some 0, false => TopServes slack s 0 nb
  | some 0, true => FreshServes host s
  | none, false => if nb ≤ maxFastSize then FreshServes host s else TopServes slack s 0 nb
  | none, true => maxFastSize < nb ∧ FreshServes host s

def Serves (slack : Nat) (host : Host) (s : State τ) (t : τ) (nb : Nat) : Prop :=
  Cached s t nb ∨ ArenaServes slack host s t nb

/-! ## What a request leaves alone -/

/-- The result of a request for a chunk of `nb` bytes by thread `t`: a block that was no one's, or
    none. The user's blocks stay, whether their keys are zero stays, and so do the lists of `t`
    for other sizes; what is mapped stays mapped, and tcaches stay. -/
structure Outcome (nb : Nat) (t : τ) (s : State τ) (B : Blocks τ) (L : τ → Nat → List Nat)
    (r : Option Nat) (s' : State τ) (B' : Blocks τ) (L' : τ → Nat → List Nat) : Prop where
  grant : ∀ p, r = some p → ∃ c n, p = c + chunkHeader ∧ B' c = some ⟨n, .live⟩ ∧ nb ≤ n ∧
    ∀ m, B c ≠ some ⟨m, .live⟩
  kept : ∀ x n, B x = some ⟨n, .live⟩ → B' x = some ⟨n, .live⟩
  only : ∀ x n, B' x = some ⟨n, .live⟩ → B x = some ⟨n, .live⟩ ∨ r = some (x + chunkHeader)
  keys : ∀ x n, B x = some ⟨n, .live⟩ → (s'.mem (x + 56) = 0 ↔ s.mem (x + 56) = 0)
  lists : ∀ i, i ≠ csize2tidx nb → L' t i = L t i
  regions : ∀ r ∈ s.regions, r ∈ s'.regions
  tcaches : ∀ u, (s.tcache u).isSome → (s'.tcache u).isSome

namespace Outcome
variable {nb : Nat} {t : τ} {s s₁ s₂ : State τ} {B B₁ B₂ : Blocks τ} {L L₁ L₂ : τ → Nat → List Nat}

/-- Nothing happens to blocks or memory. -/
theorem quiet (hmem : s₁.mem = s.mem) (hr : ∀ r ∈ s.regions, r ∈ s₁.regions)
    (htc : ∀ u, (s.tcache u).isSome → (s₁.tcache u).isSome) : Outcome nb t s B L none s₁ B L where
  grant := nofun
  kept _ _ h := h
  only _ _ h := Or.inl h
  keys _ _ _ := by rw [hmem]
  lists _ _ := rfl
  regions := hr
  tcaches := htc

/-- Only locks, the threads' arenas and counters change. -/
theorem idle (hmem : s₁.mem = s.mem) (hr : s₁.regions = s.regions) (htc : s₁.tcache = s.tcache) :
    Outcome nb t s B L none s₁ B L :=
  quiet hmem (fun _ h => hr ▸ h) (fun _ h => htc ▸ h)

/-- First something that gives nothing out, then something that does. -/
theorem trans {r : Option Nat} (h₁ : Outcome nb t s B L none s₁ B₁ L₁)
    (h₂ : Outcome nb t s₁ B₁ L₁ r s₂ B₂ L₂) : Outcome nb t s B L r s₂ B₂ L₂ where
  grant p hp := by
    obtain ⟨c, n, hpc, hn, hle, hnot⟩ := h₂.grant p hp
    exact ⟨c, n, hpc, hn, hle, fun m hm => hnot m (h₁.kept c m hm)⟩
  kept x n hx := h₂.kept x n (h₁.kept x n hx)
  only x n hx := by
    rcases h₂.only x n hx with hx | hr
    · exact Or.inl ((h₁.only x n hx).resolve_right nofun)
    · exact Or.inr hr
  keys x n hx := (h₂.keys x n (h₁.kept x n hx)).trans (h₁.keys x n hx)
  lists i hi := (h₂.lists i hi).trans (h₁.lists i hi)
  regions r hr := h₂.regions r (h₁.regions r hr)
  tcaches u hu := h₂.tcaches u (h₁.tcaches u hu)

/-- A part of the heaps where no block of the user was is laid out anew. -/
theorem of_layout {lo hi : Nat} {new : Blocks τ} {r : Option Nat}
    (hoff : ∀ x n, B x = some ⟨n, .live⟩ → x < lo ∨ hi ≤ x)
    (hgrant : ∀ p, r = some p → ∃ c n, p = c + chunkHeader ∧ lo ≤ c ∧ c < hi ∧ new c = some ⟨n, .live⟩ ∧ nb ≤ n)
    (honly : ∀ x n, new x = some ⟨n, .live⟩ → r = some (x + chunkHeader))
    (hkeys : ∀ x n, B x = some ⟨n, .live⟩ → (s₁.mem (x + 56) = 0 ↔ s.mem (x + 56) = 0))
    (hr : ∀ r ∈ s.regions, r ∈ s₁.regions) (htc : s₁.tcache = s.tcache) :
    Outcome nb t s B L r s₁ (recut B lo hi new) L where
  grant p hp := by
    obtain ⟨c, n, rfl, h1, h2, hnew, hn⟩ := hgrant p hp
    refine ⟨c, n, rfl, (recut_in h1 h2).trans hnew, hn, fun m hm => ?_⟩
    have := hoff c m hm
    omega
  kept x n hx := (recut_out (hoff x n hx)).trans hx
  only x n hx := by
    rcases recut_cases hx with ⟨-, -, hx⟩ | ⟨-, hx⟩
    · exact .inr (honly x n hx)
    · exact .inl hx
  keys := hkeys
  lists _ _ := rfl
  regions := hr
  tcaches _ h := htc ▸ h

end Outcome

namespace Inv
variable {R : Regime} {s : State τ} {B : Blocks τ} {L : τ → Nat → List Nat} {c : Nat} {b : Block τ}

theorem chunkSize_run (inv : Inv R s B L) (hc : B c = some b) :
    chunkSize c s = some (b.size, s) := by
  unfold chunkSize
  rw [bind_run (load_run (inv.mapped_block hc (by omega) (by omega)))]
  change some (sizeBits (s.mem (c + 8)), s) = _
  rw [inv.cells.sizeBits_eq hc]

theorem markInuse_run (inv : Inv R s B L) (hc : B c = some b) : markInuse c s = some ((), s) := by
  obtain ⟨n, hn, -, hhead⟩ := inv.cells.head_next hc
  have hmap : s.mapped (c + b.size + 8) = true := inv.mapped_block hc (by omega) (by omega)
  unfold markInuse
  rw [bind_run (inv.chunkSize_run hc)]
  unfold orSize
  rw [bind_run (load_run hmap), hhead.or_prevInuse hn, store_run hmap, Function.update_eq_self]

theorem hand_run (inv : Inv R s B L) (hc : B c = some b) :
    hand c s = some (some (c + chunkHeader), s) := by
  unfold hand
  rw [bind_run (inv.markInuse_run hc)]
  rfl

theorem handValid_run (inv : Inv R s B L) (hc : B c = some b) :
    handValid c s = some (some (c + chunkHeader), s) := by
  have hsz := inv.cells.laid.sizes c b hc
  have hvalid : validSize b.size = true := decide_eq_true ⟨hsz.1, Nat.mod_eq_zero_of_dvd hsz.2⟩
  unfold handValid
  rw [bind_run (inv.chunkSize_run hc), if_pos hvalid]
  exact inv.hand_run hc

end Inv

/-! ## The tcache -/

section
variable [DecidableEq τ] {R : Regime} {s : State τ} {B : Blocks τ} {L : τ → Nat → List Nat}

/-- A thread's first call makes it a tcache. -/
def withTcache (s : State τ) (t : τ) : State τ :=
  { s with tcache := Function.update s.tcache t (some ((s.tcache t).getD emptyTcache)) }

theorem tcacheInit_run (t : τ) :
    tcacheInit t s = some ((s.tcache t).getD emptyTcache, withTcache s t) := by
  unfold tcacheInit withTcache
  cases h : s.tcache t with
  | none =>
    rw [gets_bind, h]
    rfl
  | some tc =>
    rw [gets_bind, h, Option.getD_some, ← h, Function.update_eq_self, h]
    rfl

theorem bin_withTcache (t u : τ) (i : Nat) : binHead ((withTcache s t).tcache u) i = binHead (s.tcache u) i ∧
    binCount ((withTcache s t).tcache u) i = binCount (s.tcache u) i := by
  unfold withTcache
  dsimp only
  by_cases hu : u = t
  · subst hu
    rw [Function.update_self]
    cases s.tcache u <;> exact ⟨rfl, rfl⟩
  · rw [Function.update_of_ne hu]
    exact ⟨rfl, rfl⟩

theorem isSome_update {α : Type} {f : τ → Option α} {t u : τ} {a : α}
    (h : (f u).isSome) : (Function.update f t (some a) u).isSome := by
  by_cases hu : u = t
  · subst hu
    rw [Function.update_self]
    rfl
  · rw [Function.update_of_ne hu]
    exact h

theorem Inv.withTcache (inv : Inv R s B L) (t : τ) : Inv R (Words.withTcache s t) B L :=
  { inv with
    shelves :=
      { inv.shelves with
        chain := fun u i => by rw [(bin_withTcache t u i).1]; exact inv.shelves.chain u i
        count := fun u i => by rw [(bin_withTcache t u i).2]; exact inv.shelves.count u i } }

theorem Inv.fromTcache_hit (inv : Inv R s B L) {t : τ} {nb : Nat} (hlow : 32 ≤ nb) (hd : 16 ∣ nb)
    (hup : nb < minLargeSize) (hhit : Cached s t nb) :
    ∃ r s' B' L', fromTcache t nb s = some (r, s') ∧ Inv R s' B' L' ∧
      Outcome nb t s B L r s' B' L' ∧ r ≠ none := by
  have h48 : chunkHeader = 48 := rfl
  have h1024 : minLargeSize = 1024 := rfl
  have hidx := csize2tidx_eq hlow (by omega)
  obtain ⟨tc, htc, hne⟩ : ∃ tc, s.tcache t = some tc ∧ tc.bins (csize2tidx nb) ≠ 0 := by
    unfold Cached binHead at hhit
    cases h : s.tcache t with
    | none => rw [h] at hhit; exact absurd rfl hhit
    | some tc => rw [h] at hhit; exact ⟨tc, rfl, hhit⟩
  generalize hi : csize2tidx nb = i at hidx hne
  -- the head of the list is a chunk of the size asked for
  obtain ⟨c, l, hL, hhead⟩ : ∃ c l, L t i = c :: l ∧ tc.bins i = c + chunkHeader := by
    have hch := inv.shelves.chain t i
    rw [htc] at hch
    obtain ⟨l', hl', -⟩ := hch.exists_cons hne
    cases hLt : L t i with
    | nil => rw [hLt] at hl'; cases hl'
    | cons c l =>
      rw [hLt, List.map_cons] at hl'
      exact ⟨c, l, rfl, (List.cons.inj hl').1.symm⟩
  obtain ⟨n, hn⟩ := (inv.shelves.mem_iff t i c).mp (by rw [hL]; exact List.mem_cons_self)
  have hsz := inv.shelves.size c n t i hn
  have hlim := inv.shelves.limit t i
  have hcount := inv.shelves.count t i
  rw [hL, List.length_cons] at hlim hcount
  rw [htc] at hcount
  have h7 : tcacheFillCount = 7 := rfl
  have hc1 : (tc.count i + (2^32 - 1)) % 2^32 = l.length := by
    change tc.count i = l.length + 1 at hcount
    omega
  have hinv := inv.pop htc hL hn
  have hm1 : s.mapped (c + chunkHeader) = true :=
    inv.mapped_block hn (by omega) (by dsimp only; omega)
  have hm2 : s.mapped (c + 56) = true := inv.mapped_block hn (by omega) (by dsimp only; omega)
  refine ⟨some (c + chunkHeader), _, _, _, ?_, hinv, ⟨?_, ?_, ?_, ?_, ?_, fun _ h => h, ?_⟩, nofun⟩
  · have hw : Words.withTcache s t = s := by
      unfold Words.withTcache
      rw [htc, Option.getD_some, ← htc, Function.update_eq_self]
    unfold fromTcache
    rw [bind_run (tcacheInit_run t), hw, htc, Option.getD_some, hi, if_neg (by omega)]
    have hrun : tcacheAlloc t tc i s = some (some (c + chunkHeader), { s with
        tcache := Function.update s.tcache t (some (tc.set i (s.mem (c + chunkHeader)) l.length))
        mem := Function.update s.mem (c + 56) 0 }) := by
      have hset : setTcache t { bins := Function.update tc.bins i (s.mem (c + chunkHeader))
                                count := Function.update tc.count i l.length } s =
          some ((), { s with
            tcache := Function.update s.tcache t
              (some (tc.set i (s.mem (c + chunkHeader)) l.length)) }) := rfl
      unfold tcacheAlloc
      rw [if_neg hne, hhead, bind_run (load_run hm1), hc1, bind_run hset,
        show c + chunkHeader + 8 = c + 56 from rfl, bind_run (store_run (by exact hm2))]
      rfl
    rw [bind_run hrun]
    change handValid (c + chunkHeader - chunkHeader) _ = _
    rw [Nat.add_sub_cancel]
    exact hinv.handValid_run (Function.update_self _ _ _)
  · intro p hp
    cases hp
    refine ⟨c, n, rfl, Function.update_self _ _ _, by omega, fun m hm => ?_⟩
    rw [hn] at hm
    cases hm
  · intro x m hx
    rw [Function.update_of_ne]
    · exact hx
    · rintro rfl
      rw [hn] at hx
      cases hx
  · intro x m hx
    by_cases hxc : x = c
    · exact Or.inr (by rw [hxc])
    · rw [Function.update_of_ne hxc] at hx
      exact Or.inl hx
  · intro x m hx
    have hxc : x ≠ c := by
      rintro rfl
      rw [hn] at hx
      cases hx
    dsimp only
    rw [Function.update_of_ne (by omega)]
  · intro j hj
    exact setList_of_ne L l (Or.inr (by rw [← hi]; exact hj))
  · intro u hu
    exact isSome_update hu

/-- No chunk is cached for the size: only the tcache is made, if there was none. -/
theorem fromTcache_miss {t : τ} {nb : Nat} (hmiss : ¬ Cached s t nb) :
    fromTcache t nb s = some (none, withTcache s t) := by
  unfold fromTcache
  rw [bind_run (tcacheInit_run t)]
  split
  · rfl
  · have h0 : ((s.tcache t).getD emptyTcache).bins (csize2tidx nb) = 0 := by
      unfold Cached binHead at hmiss
      push Not at hmiss
      cases h : s.tcache t with
      | none => rfl
      | some tc => rw [h] at hmiss; exact hmiss
    have hrun : tcacheAlloc t ((s.tcache t).getD emptyTcache) (csize2tidx nb) (withTcache s t) =
        some (none, withTcache s t) := by
      unfold tcacheAlloc
      rw [if_pos h0]
      rfl
    rw [bind_run hrun]
    rfl

end

end MyMalloc.Ptmalloc.Words
