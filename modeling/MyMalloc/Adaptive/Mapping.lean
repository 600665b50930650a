import MyMalloc.Adaptive.System
import MyMalloc.Lib.ProbeTable

/- Memory that comes and goes: the pages of a mapping in the page table, the answers
   of the kernel, and what a direct mapping leaves behind. -/
namespace MyMalloc.Adaptive

/-! ## The pages of a mapping -/

theorem pageKey_eq {a : Nat} (h : a < 2^64) : pageKey a = a - a % 4096 :=
  maskOff_two_pow (k := 12) h (by omega)

theorem pageKey_self {a : Nat} (h : a < 2^64) (hd : pageSize ∣ a) : pageKey a = a := by
  rw [pageKey_eq h]
  unfold pageSize at hd
  omega

/-- The registration loop visits the page addresses inside the region. -/
theorem mem_regionPages {base size k : Nat} (hb : pageSize ∣ base) (hs : 0 < size)
    (hlt : base + size ≤ 2^64) :
    k ∈ regionPages base size ↔ pageSize ∣ k ∧ base ≤ k ∧ k < base + size := by
  have h1 : pageKey base = base := pageKey_self (by omega) hb
  have h2 : pageKey (base + size - 1) = base + size - 1 - (base + size - 1) % 4096 :=
    pageKey_eq (by omega)
  unfold regionPages pageSize at *
  simp only [h1, h2, List.mem_map, List.mem_range]
  constructor
  · rintro ⟨i, hi, rfl⟩
    omega
  · rintro ⟨hd, hlo, hhi⟩
    exact ⟨(k - base) / 4096, by omega, by omega⟩

theorem regionPages_nodup (base size : Nat) : (regionPages base size).Nodup :=
  List.Nodup.map (fun i j h => by omega) List.nodup_range

theorem isKey_of_dvd {k : Nat} (hd : pageSize ∣ k) (h0 : k ≠ 0) : IsKey 0 pageTombstone k := by
  refine ⟨h0, ?_⟩
  unfold pageTombstone pageSize at *
  omega

/-- Page `k` of a region finds a slot when its turn in the registration loop comes. -/
def FindsRoom (table : Nat → Nat) (base size k : Nat) : Prop :=
  ∀ ks ks', regionPages base size = ks ++ k :: ks' →
    HasRoom pageSlot pageTableProbe 0 pageTombstone
      (ks.foldl (probeInsert pageSlot pageTableProbe 0 pageTombstone) table) k

variable {τ : Type} {host : Host τ} {s : State τ}

/-! ## The kernel -/

theorem mmap_cases (host : Host τ) (size : Nat) (mode : ModeId) (s : State τ) :
    mmap host size mode s =
        (none, { s with mmapCalls := s.mmapCalls + 1, mmapFailures := s.mmapFailures + 1 }) ∨
    ∃ base, host.mmap s.mmapCalls = some base ∧ MapFits host base size s ∧
      mmap host size mode s = (some base, { s with
        mmapCalls := s.mmapCalls + 1
        mapped := ⟨base, size, mode⟩ :: s.mapped
        hdr := fun a => if base ≤ a ∧ a < base + size then zeroHeader else s.hdr a
        mem := fill base size (fun _ => 0) s.mem }) := by
  unfold mmap
  dsimp only
  cases hm : host.mmap s.mmapCalls with
  | none => exact .inl rfl
  | some base =>
    by_cases hf : MapFits host base size s
    · exact .inr ⟨base, rfl, hf, by simp only [if_pos hf]⟩
    · exact .inl (by simp only [if_neg hf])

/-! ## Direct mappings -/

theorem mapDirect_ok [DecidableEq τ] {t : τ} {req : AllocationRequest} (usable : Nat) {mapped base b : Nat}
    (hmm : mmap host mapped req.mode s = (some base, { s with
      mmapCalls := s.mmapCalls + 1
      mapped := ⟨base, mapped, req.mode⟩ :: s.mapped
      hdr := fun a => if base ≤ a ∧ a < base + mapped then zeroHeader else s.hdr a
      mem := fill base mapped (fun _ => 0) s.mem }))
    (h0 : base ≠ 0) (hs : 0 < mapped) (hb : (directUser base req.alignment).val = b + 112) :
    ∃ c mem, mapDirect host t req usable mapped s = (some b, { s with
        mapped := ⟨base, mapped, req.mode⟩ :: s.mapped
        hdr := Function.update (fun a => if base ≤ a ∧ a < base + mapped then zeroHeader else s.hdr a) b
          { directHeader req usable mapped base host.cfg.version ((s.epoch + 1) % 2^64) with
            debugCookie := c }
        table := (regionPages base mapped).foldl
          (probeInsert pageSlot pageTableProbe 0 pageTombstone) s.table
        mem := mem, mmapCalls := s.mmapCalls + 1, epoch := (s.epoch + 1) % 2^64
        next := Function.update s.next b 0, prev := Function.update s.prev b 0
        heldBy := Function.update s.heldBy b (some t) }) ∧
      ∀ a, ¬ (base ≤ a ∧ a < base + mapped) →
        ¬ (req.debugRedzone = true ∧ b + 112 + usable ≤ a ∧ a < b + 112 + usable + 16) →
        mem a = s.mem a := by
  have hreg : ¬ (base = 0 ∨ mapped = 0) := by omega
  simp only [mapDirect, hmm, registerRegion, if_neg hreg, hb]
  rw [show b + 112 - hdrOffset = b from Nat.add_sub_cancel _ _]
  by_cases hz : req.debugRedzone = true
  · -- the guards go behind the usable bytes
    refine ⟨_, _, by simp only [writeDebugGuards, Function.update_self, directHeader, hz, if_true,
      Function.update_idem]; rfl, fun a h1 h2 => ?_⟩
    have h2 : ¬ (b + 112 + usable ≤ a ∧ a < b + 112 + usable + 16) := fun h => h2 ⟨hz, h⟩
    simp only [fill, userFromHeader, hdrOffset, debugRedzoneSize, if_neg h1, if_neg h2]
  · refine ⟨0, _, by simp only [writeDebugGuards, Function.update_self, directHeader, if_neg hz]; rfl,
      fun a h1 _ => by simp only [fill, if_neg h1]⟩

end MyMalloc.Adaptive
