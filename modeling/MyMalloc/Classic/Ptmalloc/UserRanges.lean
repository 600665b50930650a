import MyMalloc.Classic.Ptmalloc.Roles

/- The bytes a user may write.

   `user_data` is 48 bytes past the start of a chunk, the size of the whole `Chunk`
   struct, but `request2size` adds 8 bytes to a request and `pt_malloc_usable_size`
   takes 8 off a chunk: the user's bytes end 40 bytes past the end of the chunk. A chunk
   of 32 bytes gets away with it, as the words it reaches are the user's of the next
   chunk or part of its links; of any longer one the user's bytes contain the size field
   of the chunk after it. -/
namespace MyMalloc.Ptmalloc.Words

variable {τ : Type} {R : Regime} {s : State τ} {B : Blocks τ} {L : τ → Nat → List Nat}
  {host : Host} {held : List Nat} {c n : Nat}

/-- The size field of a chunk in a heap, or of the chunk of a block. -/
def HeaderField (s : State τ) (held : List Nat) (a : Nat) : Prop :=
  SizeField s a ∨ ∃ p ∈ held, a = p - chunkHeader + 8

/-- The user's bytes of a block lie in its heap, or in its direct mapping. -/
def RangeInside (s : State τ) (p : Nat) : Prop :=
  (∃ h ∈ s.heaps, h.start ≤ p - chunkHeader ∧ p + s.usable p ≤ h.start + h.size) ∨
  (s.mem (p - chunkHeader + 8) &&& isMmappedBit ≠ 0 ∧
    ∃ r ∈ s.regions, r.base = p - chunkHeader ∧ p + s.usable p ≤ r.base + r.size)

/-- The user's bytes of blocks lie in their heaps, away from size fields and from each other. -/
structure RangesSound (s : State τ) (held : List Nat) : Prop where
  inside : ∀ p ∈ held, RangeInside s p
  clear : ∀ p ∈ held, ∀ a, HeaderField s held a → a + 8 ≤ p ∨ p + s.usable p ≤ a
  disjoint : ∀ p ∈ held, ∀ q ∈ held, p ≠ q → p + s.usable p ≤ q ∨ q + s.usable q ≤ p

/-- A chunk of the user where all chunks are the smallest there are. -/
theorem Inv.small_usable (inv : Inv R s B L) (hguard : R.guarded = false)
    (hn : B c = some ⟨n, .live⟩) : s.usable (c + chunkHeader) = 24 := by
  obtain ⟨h32, -⟩ := inv.side.small hguard c _ hn nofun
  dsimp only at h32
  unfold State.usable
  rw [inv.sizeAt_user hn]
  exact congrArg (· - sizeSz) h32

theorem Inv.small_inside (inv : Inv R s B L) (hguard : R.guarded = false)
    (hn : B c = some ⟨n, .live⟩) : RangeInside s (c + chunkHeader) := by
  obtain ⟨h32, hfence⟩ := inv.side.small hguard c _ hn nofun
  obtain ⟨g, hg, hlow, hup⟩ := inv.cells.laid.room hn
  have hf := inv.cells.laid.fits g hg
  have h1 := hf.first
  have h2 := hf.fence
  have h3 := hfence g hg
  have h4 := inv.cells.laid.aligned hn
  have h5 := inv.cells.laid.fence_aligned hg
  have h48 : chunkHeader = 48 := rfl
  dsimp only at h32 hup
  refine Or.inl ⟨g, hg, by omega, ?_⟩
  rw [inv.small_usable hguard hn]
  omega

/-- No size field lies in the user's bytes. -/
theorem Inv.small_clear (inv : Inv R s B L) (hguard : R.guarded = false)
    (hn : B c = some ⟨n, .live⟩) {a : Nat} (ha : SizeField s a) :
    a + 8 ≤ c + chunkHeader ∨ c + chunkHeader + s.usable (c + chunkHeader) ≤ a := by
  obtain ⟨h32, -⟩ := inv.side.small hguard c _ hn nofun
  obtain ⟨d, hd, rfl⟩ := (inv.sizeField_iff a).mp ha
  have h48 : chunkHeader = 48 := rfl
  dsimp only at h32
  rw [inv.small_usable hguard hn]
  -- word by word
  have hw₀ := (inv.small_harmless hguard hn (a := c + 48) (by omega) (by omega)).2 d hd
  have hw₁ := (inv.small_harmless hguard hn (a := c + 56) (by omega) (by omega)).2 d hd
  have hw₂ := (inv.small_harmless hguard hn (a := c + 64) (by omega) (by omega)).2 d hd
  omega

/-- Chunks of 32 bytes, and at least as much left of a top chunk that is split. -/
def smallest : Regime := ⟨32, 32, true, false, by decide, by decide, fun _ => ⟨rfl, rfl⟩⟩

/-- In every run that asks for chunks of 32 bytes, served from the tcaches and the top chunks, the
    user's bytes respect the heap, whatever the user writes there. -/
theorem user_ranges_sound [DecidableEq τ] (host : Host) (s : State τ) (held : List Nat)
    (h : RegimeReach smallest host s held) : RangesSound s held := by
  obtain ⟨B, L, inv, own⟩ := h.inv
  have h48 : chunkHeader = 48 := rfl
  refine ⟨fun p hp => ?_, fun p hp a ha => ?_, fun p hp q hq hne => ?_⟩
  · obtain ⟨c, n, rfl, hn⟩ := own.live hp
    exact inv.small_inside rfl hn
  · obtain ⟨c, n, rfl, hn⟩ := own.live hp
    have hfield : SizeField s a := by
      rcases ha with ha | ⟨q, hq, rfl⟩
      · exact ha
      · obtain ⟨d, m, rfl, hm⟩ := own.live hq
        rw [Nat.add_sub_cancel]
        exact (inv.sizeField_iff _).mpr ⟨d, Or.inl ⟨_, hm⟩, rfl⟩
    exact inv.small_clear rfl hn hfield
  · obtain ⟨c, n, rfl, hn⟩ := own.live hp
    obtain ⟨d, m, rfl, hm⟩ := own.live hq
    rw [inv.small_usable rfl hn, inv.small_usable rfl hm]
    have hc := (inv.cells.laid.sizes c _ hn).1
    have hd := (inv.cells.laid.sizes d _ hm).1
    dsimp only at hc hd
    have := inv.cells.laid.disjoint hn hm (fun heq : d = c => hne (by rw [heq]))
    dsimp only at this
    omega

theorem two_small_ranges_sound : ∃ s held, RegimeReach (τ := Unit) smallest spaciousHost s held ∧
    held = [50331776, 50331744] ∧ RangesSound s held := by
  have heval : (runCalls smallest spaciousHost [.malloc () 24, .malloc () 10]).map (fun r => r.2) =
      some [50331776, 50331744] := by decide +kernel
  obtain ⟨⟨s, held⟩, hrun, hheld⟩ := Option.map_eq_some_iff.mp heval
  have h := reach_of_runCalls hrun
  exact ⟨s, held, h, hheld, user_ranges_sound spaciousHost s held h⟩

/-- The 40 bytes of `pt_malloc(40)` contain the size field of the top chunk. -/
theorem size_field_in_range : ∃ host s held, Reach (τ := Unit) host (fun _ _ => True) s held ∧
    ¬ RangesSound s held := by
  obtain ⟨s, B, L, h, inv, hc, -, -⟩ := malloc_forty
  refine ⟨spaciousHost, s, _, h.mono (fun _ _ _ => trivial), fun hsound => ?_⟩
  have husable : s.usable 50331744 = 40 := by
    unfold State.usable
    rw [show s.sizeAt (50331744 - chunkHeader) = 48 from inv.sizeAt_user hc]
    rfl
  have hfield : SizeField s (50331696 + 48 + 8) :=
    (inv.sizeField_iff _).mpr ⟨_, inv.cells.starts_next hc, rfl⟩
  have := hsound.clear 50331744 (List.mem_singleton_self _) _ (Or.inl hfield)
  omega

end MyMalloc.Ptmalloc.Words
