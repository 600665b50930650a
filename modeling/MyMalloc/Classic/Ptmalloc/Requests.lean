import MyMalloc.Classic.Ptmalloc.Extend

/- `pt_malloc` for requests that a tcache or a top chunk serves.

   What is left is which arena a call ends up with. `ArenaServes` has one case for
   each way: the thread's own arena, the main arena, or a new one; the two ways
   into a call (fastbins, then strategies 3 to 7) agree on it. -/
namespace MyMalloc.Ptmalloc.Words

open Exec

variable {τ : Type} {R : Regime} {s : State τ} {B : Blocks τ} {L : τ → Nat → List Nat}
  {host : Host} {k nb : Nat} {t : τ}

/-! ## Locks -/

def State.locked (s : State τ) (b : Bool) : State τ := { s with mainLocked := b }

theorem Inv.locked (inv : Inv R s B L) (b : Bool) : Inv R (s.locked b) B L := { inv with }

theorem State.locked_self (h : s.mainLocked = false) : (s.locked true).locked false = s := by
  obtain ⟨⟩ := s
  dsimp only at h
  subst h
  rfl

theorem lockArena_main (h : s.mainLocked = false) : lockArena 0 s = some ((), s.locked true) := by
  unfold lockArena
  rw [gets_bind, if_neg (by decide), h, if_neg (by decide)]
  rfl

theorem lockArena_other (hk : k ≠ 0) : lockArena k s = some ((), s) := by
  unfold lockArena
  rw [gets_bind, if_pos hk]
  rfl

theorem unlockArena_main : unlockArena 0 s = some ((), s.locked false) := rfl

theorem unlockArena_other (hk : k ≠ 0) : unlockArena k s = some ((), s) := by
  unfold unlockArena Exec.modify
  beta_reduce
  rw [if_neg hk]

theorem Inv.unlock (inv : Inv R s B L) (k : Nat) :
    ∃ s', unlockArena k s = some ((), s') ∧ Inv R s' B L ∧ s'.mem = s.mem ∧
      s'.regions = s.regions ∧ s'.tcache = s.tcache := by
  by_cases hk : k = 0
  · subst hk
    exact ⟨_, unlockArena_main, inv.locked false, rfl, rfl, rfl⟩
  · exact ⟨s, unlockArena_other hk, inv, rfl, rfl, rfl⟩

theorem Inv.popFastbin_run (inv : Inv R s B L) (hk : k < s.narenas) :
    popFastbin k nb s = some (none, s) := by
  have hpop : ∀ i, fastPop k i s = some (none, s) := by
    intro i
    unfold fastPop
    rw [bind_run getArenaRec_run, if_pos ((inv.arenas k hk).fast i)]
    rfl
  unfold popFastbin
  split
  · rfl
  · rw [bind_run (hpop _)]
    rfl

/-! ## The arena of a call -/

section
variable [DecidableEq τ]

theorem setThreadArena_run : setThreadArena t k s = some ((), { s with
    threadArena := Function.update s.threadArena t (some k) }) := rfl

theorem Inv.setThread (inv : Inv R s B L) (hk : k < s.narenas) :
    Inv R { s with threadArena := Function.update s.threadArena t (some k) } B L :=
  { inv with
    threads := fun u j hu => by
      by_cases hut : u = t
      · subst hut
        dsimp only at hu ⊢
        rw [Function.update_self, Option.some.injEq] at hu
        exact hu ▸ hk
      · dsimp only at hu ⊢
        rw [Function.update_of_ne hut] at hu
        exact inv.threads u j hu }

theorem getArena_own (ht : s.threadArena t = some (k + 1)) :
    getArena host t s = some (k + 1, s) := by
  unfold getArena
  rw [gets_bind, ht, gets_bind, if_pos ⟨nofun, fun h => by cases h⟩]
  rfl

/-- A thread that has no arena but the main one. -/
def NoOwn (s : State τ) (t : τ) : Prop := s.threadArena t = none ∨ s.threadArena t = some 0

omit [DecidableEq τ] in
theorem NoOwn.not (h : NoOwn s t) : ¬ (s.threadArena t ≠ none ∧ s.threadArena t ≠ some 0) := by
  rintro ⟨h1, h2⟩
  exact h.elim h1 h2

theorem getArena_main (ht : NoOwn s t) (hl : s.mainLocked = false) :
    getArena host t s = some (0, s.locked true) := by
  unfold getArena
  rw [gets_bind, gets_bind, if_neg ht.not, if_pos (by rw [hl]; rfl),
    bind_run (lockArena_main hl)]
  rfl

theorem Inv.getArena_new (inv : Inv R s B L) (nb : Nat) (ht : NoOwn s t) (hl : s.mainLocked = true)
    (hfresh : FreshServes host s) :
    ∃ s' B', getArena host t s = some (s.narenas, s') ∧ Inv R s' B' L ∧
      Outcome nb t s B L none s' B' L ∧ s.narenas < s'.narenas ∧
      s'.threadArena t = some s.narenas ∧
      ∀ n slack, n + slack ≤ 1052592 → TopServes slack s' s.narenas n := by
  obtain ⟨s₁, B', hrun, hinv, hout, hn, -, -, htop⟩ := inv.newArena nb t hfresh
  have hlt : s.narenas < s₁.narenas := by rw [hn]; exact Nat.lt_succ_self _
  refine ⟨_, B', ?_, hinv.setThread (t := t) hlt, hout.trans (Outcome.idle rfl rfl rfl), hlt, ?_, htop⟩
  · have hown : gets (fun s : State τ => s.threadArena t) s = some (s.threadArena t, s) := rfl
    unfold getArena
    rw [bind_run hown, gets_bind, if_neg ht.not, if_neg (by rw [hl]; decide), bind_run hrun]
    exact bind_run setThreadArena_run
  · exact Function.update_self _ _ _

/-! ## Both ways into a call -/

theorem fromFastbins_large (hnb : maxFastSize < nb) :
    fromFastbins host t nb s = some (none, s) := by
  unfold fromFastbins
  rw [if_pos hnb]
  rfl

theorem Inv.fromFastbins_small {s₁ s₂ : State τ} (inv : Inv R s₂ B L)
    (hnb : nb ≤ maxFastSize) (hk : k < s₂.narenas)
    (hpre : s.threadArena t = none → lockArena 0 s = some ((), s₁))
    (hown : s.threadArena t ≠ none → s₁ = s) (hget : getArena host t s₁ = some (k, s₂)) {s' : State τ}
    (hun : unlockArena k s₂ = some ((), s')) :
    fromFastbins host t nb s = some (none, s') := by
  unfold fromFastbins
  rw [if_neg (by omega), gets_bind]
  by_cases hnone : s.threadArena t = none
  · rw [if_pos hnone, bind_run (hpre hnone)]
    beta_reduce
    rw [bind_run hget, bind_run (inv.popFastbin_run hk)]
    exact bind_run hun
  · obtain rfl := hown hnone
    rw [if_neg hnone]
    beta_reduce
    rw [bind_run hget, bind_run (inv.popFastbin_run hk)]
    exact bind_run hun

theorem chooseArena_own (ht : s.threadArena t = some k) (hk : k ≠ 0) :
    chooseArena host t s = some (k, s) := by
  unfold chooseArena
  rw [gets_bind, ht, gets_bind]
  dsimp only
  rw [if_pos (Or.inl hk), bind_run (lockArena_other hk)]
  rfl

theorem chooseArena_main (ht : s.threadArena t = some 0) (hl : s.mainLocked = false) :
    chooseArena host t s = some (0, s.locked true) := by
  unfold chooseArena
  rw [gets_bind, ht, gets_bind]
  dsimp only
  rw [if_pos (Or.inr (by rw [hl]; rfl)), bind_run (lockArena_main hl)]
  rfl

/-- Where the thread's arena cannot be had, `get_arena` decides. -/
theorem chooseArena_get {s' : State τ} (ht : s.threadArena t = none ∨
      (s.threadArena t = some 0 ∧ s.mainLocked = true)) (hget : getArena host t s = some (k, s')) :
    chooseArena host t s = some (k, { s' with
      threadArena := Function.update s'.threadArena t (some k) }) := by
  unfold chooseArena
  rcases ht with ht | ⟨ht, hl⟩
  · rw [gets_bind, ht, gets_bind]
    dsimp only
    rw [bind_run hget, bind_run setThreadArena_run]
    rfl
  · rw [gets_bind, ht, gets_bind]
    dsimp only
    rw [if_neg (by rw [hl]; decide), bind_run hget, bind_run setThreadArena_run]
    rfl

/-- The call ends up with an arena that serves it. -/
theorem Inv.arenaPath (inv : Inv R s B L) (hserve : ArenaServes R.slack host s t nb)
    (hmax : nb ≤ R.maxChunk) :
    ∃ s₁ s₂ k B', fromFastbins host t nb s = some (none, s₁) ∧
      chooseArena host t s₁ = some (k, s₂) ∧ Inv R s₂ B' L ∧ Outcome nb t s B L none s₂ B' L ∧
      k < s₂.narenas ∧ TopServes R.slack s₂ k nb := by
  have h1024 : minLargeSize = 1024 := rfl
  have hsmall := R.small
  have hslack := R.slack_le
  have hmain := inv.main
  unfold ArenaServes at hserve
  cases hta : s.threadArena t with
  | some k =>
    cases k with
    | succ k =>
      -- the thread's own arena
      rw [hta] at hserve
      have hk : k + 1 < s.narenas := inv.threads t _ hta
      have hfast : fromFastbins host t nb s = some (none, s) := by
        by_cases hnb : nb ≤ maxFastSize
        · exact inv.fromFastbins_small hnb hk (fun h => absurd (hta.symm.trans h) nofun)
            (fun _ => rfl) (getArena_own hta) (unlockArena_other (by omega))
        · exact fromFastbins_large (by omega)
      exact ⟨s, s, k + 1, B, hfast, chooseArena_own hta (by omega), inv, Outcome.idle rfl rfl rfl, hk,
        hserve⟩
    | zero =>
      cases hl : s.mainLocked with
      | false =>
        rw [hta, hl] at hserve
        have hfast : fromFastbins host t nb s = some (none, s) := by
          by_cases hnb : nb ≤ maxFastSize
          · refine (inv.locked true).fromFastbins_small hnb hmain
              (fun h => absurd (hta.symm.trans h) nofun) (fun _ => rfl)
              (getArena_main (Or.inr hta) hl) ?_
            rw [unlockArena_main, State.locked_self hl]
          · exact fromFastbins_large (by omega)
        exact ⟨s, _, 0, B, hfast, chooseArena_main hta hl, inv.locked true, Outcome.idle rfl rfl rfl,
          hmain, hserve⟩
      | true =>
        rw [hta, hl] at hserve
        obtain ⟨s', B', hget, hinv, hout, hlt, hta', htop⟩ := inv.getArena_new nb (Or.inr hta) hl
          hserve
        by_cases hnb : nb ≤ maxFastSize
        · exact ⟨s', s', s.narenas, B', hinv.fromFastbins_small hnb hlt
            (fun h => absurd (hta.symm.trans h) nofun) (fun _ => rfl) hget
            (unlockArena_other (by omega)), chooseArena_own hta' (by omega), hinv, hout, hlt,
            htop nb R.slack (by omega)⟩
        · exact ⟨s, _, s.narenas, B', fromFastbins_large (by omega),
            chooseArena_get (Or.inr ⟨hta, hl⟩) hget, hinv.setThread hlt,
            hout.trans (Outcome.idle rfl rfl rfl), hlt, htop nb R.slack (by omega)⟩
  | none =>
    cases hl : s.mainLocked with
    | false =>
      rw [hta, hl] at hserve
      dsimp only at hserve
      by_cases hnb : nb ≤ maxFastSize
      · -- the main arena is locked and stays so; the call gets a new arena
        rw [if_pos hnb] at hserve
        have hlock : Outcome nb t s B L none (s.locked true) B L := Outcome.idle rfl rfl rfl
        obtain ⟨s', B', hget, hinv, hout, hlt, hta', htop⟩ := (inv.locked true).getArena_new nb
          (Or.inl hta) rfl hserve
        exact ⟨s', s', s.narenas, B', hinv.fromFastbins_small hnb hlt (fun _ => lockArena_main hl)
          (fun h => absurd hta h) hget (unlockArena_other (Nat.ne_of_gt hmain)),
          chooseArena_own hta' (Nat.ne_of_gt hmain), hinv, hlock.trans hout, hlt,
          htop nb R.slack (by omega)⟩
      · rw [if_neg hnb] at hserve
        exact ⟨s, _, 0, B, fromFastbins_large (by omega),
          chooseArena_get (Or.inl hta) (getArena_main (Or.inl hta) hl),
          (inv.locked true).setThread hmain, Outcome.idle rfl rfl rfl, hmain, hserve⟩
    | true =>
      rw [hta, hl] at hserve
      obtain ⟨hnb, hfresh⟩ := hserve
      obtain ⟨s', B', hget, hinv, hout, hlt, hta', htop⟩ := inv.getArena_new nb (Or.inl hta) hl
        hfresh
      exact ⟨s, _, s.narenas, B', fromFastbins_large hnb, chooseArena_get (Or.inl hta) hget,
        hinv.setThread hlt, hout.trans (Outcome.idle rfl rfl rfl), hlt, htop nb R.slack (by omega)⟩

/-! ## Malloc -/

/-- The chunk size that `pt_malloc` looks for. -/
def chunkFor (n : Nat) : Nat := request2size (if n = 0 then 1 else n)

omit [DecidableEq τ] in
theorem ptMallocInit_run (h : s.initialised = true) : ptMallocInit host s = some ((), s) := by
  unfold ptMallocInit
  rw [gets_bind, h, if_pos rfl]
  rfl

/-- A request that is served has a result: a block that was no one's, of the size asked for, or
    none for want of memory. -/
theorem Inv.ptMalloc (inv : Inv R s B L) {n : Nat} (hmax : chunkFor n ≤ R.maxChunk)
    (hserve : Serves R.slack host s t (chunkFor n)) :
    ∃ r s' B' L', Words.ptMalloc host t n s = some (r, s') ∧ Inv R s' B' L' ∧
      Outcome (chunkFor n) t s B L r s' B' L' ∧ (s'.tcache t).isSome := by
  obtain ⟨hlow, hd, -⟩ : minsize ≤ chunkFor n ∧ 16 ∣ chunkFor n ∧ chunkFor n < 2^64 :=
    request2size_spec _
  have hsmall : chunkFor n < minLargeSize := Nat.lt_of_le_of_lt hmax R.small
  unfold Words.ptMalloc
  rw [bind_run (ptMallocInit_run inv.started)]
  change ∃ r s' B' L', orElse (fromTcache t (chunkFor n)) (orElse (fromFastbins host t (chunkFor n))
    (fromChosen host t (chunkFor n))) s = some (r, s') ∧ _
  generalize chunkFor n = nb at *
  by_cases hhit : Cached s t nb
  · obtain ⟨r, s', B', L', hrun, hinv, hout, hr⟩ := inv.fromTcache_hit hlow hd hsmall hhit
    obtain ⟨p, rfl⟩ := Option.ne_none_iff_exists'.mp hr
    refine ⟨some p, s', B', L', orElse_some hrun, hinv, hout, hout.tcaches t ?_⟩
    unfold Cached binHead at hhit
    cases htc : s.tcache t with
    | none => rw [htc] at hhit; exact absurd rfl hhit
    | some tc => rfl
  · -- the tcache has nothing: an arena serves
    obtain ⟨s₁, s₂, k, B₁, hfast, hchoose, hinv, hout, hk, htop⟩ := (inv.withTcache t).arenaPath
      (hserve.resolve_left hhit) hmax
    obtain ⟨r, s₃, B', hrun, hinv', hout'⟩ := hinv.fromArena host (t := t) hk htop hlow hd hmax
    obtain ⟨s', hun, hinv'', hmem, hreg, htc⟩ := hinv'.unlock k
    have hquiet : Outcome nb t s B L none (Words.withTcache s t) B L :=
      Outcome.quiet rfl (fun _ h => h) (fun _ h => isSome_update h)
    have hlast : Outcome nb t s₂ B₁ L r s' B' L :=
      ⟨hout'.grant, hout'.kept, hout'.only, fun x n hx => by rw [hmem]; exact hout'.keys x n hx,
        hout'.lists, fun r hr => by rw [hreg]; exact hout'.regions r hr,
        fun u hu => by rw [htc]; exact hout'.tcaches u hu⟩
    refine ⟨r, s', B', L, ?_, hinv'', (hquiet.trans hout).trans hlast,
      (hout.trans hlast).tcaches t ?_⟩
    rotate_left
    · unfold Words.withTcache
      dsimp only
      rw [Function.update_self]
      rfl
    rw [orElse_none (fromTcache_miss hhit), orElse_none hfast]
    unfold fromChosen
    rw [bind_run hchoose, bind_run hrun]
    exact bind_run hun

end

end MyMalloc.Ptmalloc.Words
