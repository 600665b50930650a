import MyMalloc.Classic.Mimalloc.Runs

/- `mi_memalign` of the mimalloc-like allocator.

   The mapping begins with a word for its size, and the block is the first multiple
   of the alignment after it. `mi_usable_size` and `mi_free` look for the size in the
   word before the block instead. The two words are never the same: the mapping
   begins at a page, and the word before a multiple of 32 does not. For the same
   reason `munmap` refuses the address that `mi_free` passes, so the block is never
   given back (`memalign_round_trip_iff`). Where the lookup takes the start of the
   64 KiB around the block for a segment, nothing is unmapped either. -/
namespace MyMalloc.Mimalloc

variable {τ : Type} [DecidableEq τ]

/-- The bytes `mi_memalign` asks the system for. -/
def memalignBytes (alignment n : Nat) : Nat :=
  (mapSize ((maskOff ((n + 8 + alignment - 1) % 2^64) (alignment - 1) + 8 + alignment) % 2^64)).val

/-- The bytes a call mapped, from the states before and after it. -/
def Mapped (s s' : State τ) (a : Nat) : Prop := s.mapped a = false ∧ s'.mapped a = true

/-- If the call returns a block: it is aligned, its usable size covers the request and is mapped
by the call, and `mi_free` unmaps what the call mapped and nothing else. -/
def RoundTrips (host : Host) (user : Nat → Nat) (t : τ) (alignment n : Nat) (s : State τ) : Prop :=
  ∀ p s', miMemalign host t alignment n s = some (some p, s') →
    alignment ∣ p ∧
    (∃ u, miUsableSize user p s' = some u ∧ n ≤ u ∧ ∀ a, p ≤ a → a < p + u → Mapped s s' a) ∧
    ∃ s'', miFree user t p s' = some s'' ∧
      ∀ a, (Mapped s s' a → s''.mapped a = false) ∧ (¬ Mapped s s' a → s''.mapped a = s'.mapped a)

/-- The call is refused, or maps a region with the block in it. -/
theorem miMemalign_cases (host : Host) (t : τ) (s : State τ) {k : Nat} (n : Nat) (h16 : 16 < 2^k) :
    mmapAnswer host (memalignBytes (2^k) n) s = none ∧
      miMemalign host t (2^k) n s = some (none, { s with mmapCalls := s.mmapCalls + 1 }) ∨
    ∃ raw s', mmapAnswer host (memalignBytes (2^k) n) s = some raw ∧
      s'.regions = ⟨raw, memalignBytes (2^k) n⟩ :: s.regions ∧
      miMemalign host t (2^k) n s = some (some (maskOff (raw + 8 + 2^k - 1) (2^k - 1)), s') := by
  have hpow : 2^k &&& (2^k - 1) = 0 := by rw [Nat.and_two_pow_sub_one_eq_mod, Nat.mod_self]
  rw [miMemalign, if_neg (show ¬ 2^k ≤ blockAlign from Nat.not_le.mpr h16), if_neg (not_not.mpr hpow)]
  dsimp only [rawAlloc]
  cases hm : mmapAnswer host (memalignBytes (2^k) n) s with
  | none =>
    rw [memalignBytes] at hm
    rw [hm]
    exact .inl ⟨rfl, rfl⟩
  | some raw =>
    rw [memalignBytes] at hm
    rw [hm]
    exact .inr ⟨raw, _, rfl, rfl, rfl⟩

omit [DecidableEq τ] in
/-- Freeing a multiple of 32 unmaps nothing: it has no mapping right before it. -/
theorem miFree_regions {user : Nat → Nat} {t : τ} {p : Nat} {s s' : State τ} (hp : 32 ∣ p)
    (h : miFree user t p s = some s') : s'.regions = s.regions := by
  unfold miFree at h
  split at h
  · obtain rfl := Option.some.inj h
    rfl
  · rename_i hne
    split at h
    · exact absurd h (Option.some_ne_none _).symm
    · -- taken for a large block
      obtain ⟨actual, -, rfl⟩ := Option.map_eq_some_iff.mp h
      have hodd : (p - 8) % osPageSize ≠ 0 := by
        rw [show osPageSize = 4096 from rfl]
        omega
      rw [rawFree, if_pos (.inl hodd)]
    · -- taken for a block of a segment
      obtain ⟨pg, -, rfl⟩ := Option.map_eq_some_iff.mp h
      split
      · rfl
      · rfl

/-- A block of `mi_memalign` makes the round trip exactly if there is none. -/
theorem memalign_round_trip_iff (host : Host) (user : Nat → Nat) (t : τ) (s : State τ) (alignment n : UInt64) (k : Nat)
    (hpow : alignment.toNat = 2^k) (h16 : 16 < alignment.toNat) :
    RoundTrips host user t alignment.toNat n.toNat s ↔
      mmapAnswer host (memalignBytes alignment.toNat n.toNat) s = none := by
  rw [hpow] at h16 ⊢
  obtain ⟨hno, hcall⟩ | ⟨raw, s', hm, hregions, hcall⟩ := miMemalign_cases host t s n.toNat h16
  · refine iff_of_true (fun p s' he => ?_) hno
    rw [hcall] at he
    exact absurd (congrArg Prod.fst (Option.some.inj he)) (Option.some_ne_none p).symm
  · refine iff_of_false (fun h => ?_) (by rw [hm]; exact Option.some_ne_none raw)
    obtain ⟨hdvd, -, s'', hfree, hexact⟩ := h _ _ hcall
    obtain ⟨-, hfits⟩ := mmapAnswer_eq_some hm
    obtain ⟨hsize, -, -, -, hapart⟩ := hfits
    have h32 : 32 ∣ 2^k := by
      have hk5 : 2^4 < 2^k := h16
      have : 4 < k := (Nat.pow_lt_pow_iff_right (by decide)).mp hk5
      exact Nat.pow_dvd_pow 2 this
    -- the first byte of the mapping stays mapped
    have hhas : Region.Has ⟨raw, memalignBytes (2^k) n.toNat⟩ raw := ⟨Nat.le_refl _, by dsimp only; omega⟩
    have hon : s'.mapped raw = true := mapped_of_has (hregions ▸ List.mem_cons_self) hhas
    have hoff : s.mapped raw = false := by
      rw [Bool.eq_false_iff]
      intro hmap
      obtain ⟨r, hr, hrhas⟩ := List.any_eq_true.mp hmap
      have hin : r.Has raw := of_decide_eq_true (p := r.base ≤ raw ∧ raw < r.base + r.size) hrhas
      exact (hapart r hr).not_has hin hhas
    have hlost := (hexact raw).1 ⟨hoff, hon⟩
    rw [State.mapped, miFree_regions (Nat.dvd_trans h32 hdvd) hfree] at hlost
    rw [State.mapped, hlost] at hon
    exact absurd hon (by decide)

/-- A system without memory: there is no block, and nothing to give back. -/
theorem memalign_refused_round_trip :
    (64 : UInt64).toNat = 2^6 ∧
      RoundTrips ⟨fun _ => none, fun _ => true⟩ (fun _ => 0) 0 (64 : UInt64).toNat (100 : UInt64).toNat (State.start Nat) :=
  ⟨rfl, (memalign_round_trip_iff _ _ _ _ 64 100 6 rfl (by decide)).mpr rfl⟩

/-- 100 bytes aligned to 64 in a new process: no usable byte is found, and freeing the block leaves its page mapped. -/
theorem memalign_64_kept :
    (miMemalign eagerHost 0 64 100 (State.start Nat)).map (fun r => (r.1, r.2.regions)) =
        some (some 1048640, [⟨1048576, 4096⟩]) ∧
      ((miMemalign eagerHost 0 64 100 (State.start Nat)).bind fun r =>
        (miUsableSize (fun _ => 0) 1048640 r.2)) = some 0 ∧
      ((miMemalign eagerHost 0 64 100 (State.start Nat)).bind fun r =>
        (miFree (fun _ => 0) 0 1048640 r.2).map (·.regions)) = some [⟨1048576, 4096⟩] := by
  decide +kernel

end MyMalloc.Mimalloc
