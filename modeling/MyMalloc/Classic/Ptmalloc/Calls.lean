import MyMalloc.Classic.Ptmalloc.Roles

/- The calls of a run that keeps to a regime.

   A call has no result if it accesses a word that is not mapped, blocks on a mutex
   or follows a list that does not end. In these runs every call has one, whichever
   thread makes it (`calls_return`). -/
namespace MyMalloc.Ptmalloc.Words

variable {τ : Type} [DecidableEq τ] {R : Regime} {host : Host} {s : State τ} {held : List Nat}

/-- A block of 40 bytes can become one of 24. -/
theorem forty_shrinks : ∃ s : State Unit, RegimeReach lossless spaciousHost s [50331744] ∧
    (Request.realloc () 50331744 24).Fits lossless spaciousHost s := by
  obtain ⟨s, B, L, h, inv, hc, -⟩ := malloc_forty
  refine ⟨s, h, Or.inl ?_⟩
  rw [show s.sizeAt (50331744 - chunkHeader) = 48 from inv.cells.sizeBits_eq hc]
  decide

theorem calls_return (h : RegimeReach R host s held) (q : Request τ) (legal : q.Legal s held) (fit : q.Fits R host s) :
    ∃ r s', q.exec host s = some (r, s') ∧ RegimeReach R host s' (q.heldAfter r held) := by
  obtain ⟨B, L, inv, own⟩ := h.inv
  obtain ⟨r, s', -, -, hrun, -⟩ := inv.step own legal fit
  exact ⟨r, s', hrun, h.step q legal fit hrun⟩

theorem calls_return_shrinking : ∃ (s s' : State Unit) (r : Option Nat),
    (Request.realloc () 50331744 24).exec spaciousHost s = some (r, s') := by
  obtain ⟨s, h, fit⟩ := forty_shrinks
  obtain ⟨r, s', hrun, -⟩ := calls_return h (.realloc () 50331744 24) (Or.inr (List.mem_singleton_self _)) fit
  exact ⟨s, s', r, hrun⟩

/-- Each bin of a tcache is a counted list of at most seven chunks of its size. No chunk is twice in the tcaches, or
    there and held. -/
theorem tcaches_apart (h : RegimeReach R host s held) : ∃ L : τ → Nat → List Nat, ∀ t i,
    Chain 0 s.mem (binHead (s.tcache t) i) ((L t i).map (· + chunkHeader)) ∧
      binCount (s.tcache t) i = (L t i).length ∧ (L t i).length ≤ 7 ∧
      ∀ c ∈ L t i, s.sizeAt c = (i + 2) * 16 ∧ c + chunkHeader ∉ held ∧ ∀ u j, c ∈ L u j → u = t ∧ j = i := by
  obtain ⟨B, L, inv, own⟩ := h.inv
  refine ⟨L, fun t i => ⟨inv.shelves.chain t i, inv.shelves.count t i, inv.shelves.limit t i, fun c hc => ?_⟩⟩
  obtain ⟨n, hn⟩ := (inv.shelves.mem_iff t i c).mp hc
  refine ⟨(inv.cells.sizeBits_eq hn).trans (inv.shelves.size c n t i hn).2.1, fun hp => ?_, fun u j hc' => ?_⟩
  · obtain ⟨d, m, e, hd⟩ := own.live hp
    rw [← Nat.add_right_cancel e, hn] at hd
    cases hd
  · obtain ⟨m, hm⟩ := (inv.shelves.mem_iff u j c).mp hc'
    cases hn.symm.trans hm
    exact ⟨rfl, rfl⟩

theorem tcaches_apart_freed : ∃ (s : State Unit) (L : Unit → Nat → List Nat), (L () 5).length = 1 ∧
    ∀ c ∈ L () 5, s.sizeAt c = 112 := by
  have heval : (runCalls lossless spaciousHost [.malloc () 100, .free () 50331744]).map
      (fun r => binCount (r.1.tcache ()) 5) = some 1 := by decide +kernel
  obtain ⟨⟨s, held⟩, hrun, hcount⟩ := Option.map_eq_some_iff.mp heval
  obtain ⟨L, hL⟩ := tcaches_apart (reach_of_runCalls hrun)
  exact ⟨s, L, (hL () 5).2.1.symm.trans hcount, fun c hc => ((hL () 5).2.2.2 c hc).1⟩

/-- `pt_realloc` fails, or returns a block of the size it computes for the request. -/
theorem realloc_grants {t : τ} {p : Nat} {n : UInt64} (h : RegimeReach R host s held) (hp : p ∈ held) (hn : n ≠ 0)
    (fit : (Request.realloc t p n).Fits R host s) :
    ∃ r s', ptRealloc host t p n.toNat s = some (r, s') ∧
      ∀ q, r = some q → request2size n.toNat ≤ s'.sizeAt (q - chunkHeader) := by
  obtain ⟨B, L, inv, own⟩ := h.inv
  have hp0 := own.ne_zero hp
  obtain ⟨c, m, rfl, hm⟩ := own.live hp
  dsimp only [Request.Fits] at fit
  rw [if_neg hp0, if_neg hn, Nat.add_sub_cancel, show s.sizeAt c = m from inv.cells.sizeBits_eq hm] at fit
  obtain ⟨r, s', B', L', hrun, inv', hrep⟩ := inv.ptRealloc hm (fun e => hn (UInt64.toNat_inj.mp e)) fit
  refine ⟨r, s', hrun, fun q hq => ?_⟩
  obtain ⟨d, k, rfl, hd, hle⟩ := hrep.grant q hq
  rw [Nat.add_sub_cancel, show s'.sizeAt d = k from inv'.cells.sizeBits_eq hd]
  exact hle

theorem realloc_grants_shrinking : ∃ (s s' : State Unit) (r : Option Nat),
    ptRealloc spaciousHost () 50331744 24 s = some (r, s') ∧ ∀ q, r = some q → 32 ≤ s'.sizeAt (q - chunkHeader) := by
  obtain ⟨s, h, fit⟩ := forty_shrinks
  obtain ⟨r, s', hrun, hsize⟩ := realloc_grants h (List.mem_singleton_self _) (by decide) fit
  exact ⟨s, s', r, hrun, hsize⟩

end MyMalloc.Ptmalloc.Words
