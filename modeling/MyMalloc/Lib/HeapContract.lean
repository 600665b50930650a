import Mathlib.Logic.Function.Basic

/- The contract between an allocator and the program that uses it.

   The blocks a program holds are a partial map from addresses to sizes (`Blocks`)
   that never overlap. An allocator keeps its own state and may write anywhere, but
   what it returns does not overlap a block that is held, and it leaves the contents
   of the blocks that stay held as they are (`Contract`). The program in turn writes
   only into its own blocks. -/
namespace MyMalloc

abbrev Memory := Nat → UInt8

/-! ## The blocks that are held -/

/-- The size of the block that begins at an address. -/
structure Blocks where
  size : Nat → Option Nat
  null : size 0 = none
  apart : ∀ {p q n k}, p ≠ q → size p = some n → size q = some k → p + n ≤ q ∨ q + k ≤ p

namespace Blocks

variable {B : Blocks} {p q n k : Nat}

/-- `n` bytes from `p` on overlap no block. -/
structure Fits (B : Blocks) (p n : Nat) : Prop where
  pos : p ≠ 0
  new : B.size p = none
  apart : ∀ {q k}, B.size q = some k → p + n ≤ q ∨ q + k ≤ p

/-- No block. -/
def empty : Blocks := ⟨fun _ => none, rfl, fun _ h => nomatch h⟩

def insert (B : Blocks) (p n : Nat) (h : B.Fits p n) : Blocks where
  size := Function.update B.size p (some n)
  null := by rw [Function.update_of_ne h.pos.symm, B.null]
  apart := by
    intro a b i j hab ha hb
    by_cases hap : a = p
    · subst hap
      rw [Function.update_self] at ha
      rw [Function.update_of_ne hab.symm] at hb
      exact Option.some.inj ha ▸ h.apart hb
    · rw [Function.update_of_ne hap] at ha
      by_cases hbp : b = p
      · subst hbp
        rw [Function.update_self] at hb
        exact Option.some.inj hb ▸ (h.apart ha).symm
      · rw [Function.update_of_ne hbp] at hb
        exact B.apart hab ha hb

def erase (B : Blocks) (p : Nat) : Blocks where
  size := Function.update B.size p none
  null := by
    rcases eq_or_ne 0 p with rfl | h
    · exact Function.update_self ..
    · rw [Function.update_of_ne h, B.null]
  apart := by
    intro a b i j hab ha hb
    have hap : a ≠ p := fun h => by simp [h] at ha
    have hbp : b ≠ p := fun h => by simp [h] at hb
    rw [Function.update_of_ne hap] at ha
    rw [Function.update_of_ne hbp] at hb
    exact B.apart hab ha hb

@[simp] theorem insert_self (h : B.Fits p n) : (B.insert p n h).size p = some n := Function.update_self ..

theorem insert_of_ne (h : B.Fits p n) (hq : q ≠ p) : (B.insert p n h).size q = B.size q :=
  Function.update_of_ne hq ..

@[simp] theorem erase_self : (B.erase p).size p = none := Function.update_self ..

theorem erase_of_ne (hq : q ≠ p) : (B.erase p).size q = B.size q := Function.update_of_ne hq ..

theorem ne_null (h : B.size p = some n) : p ≠ 0 := by
  rintro rfl
  simp [B.null] at h

theorem Fits.ne (h : B.Fits p n) (hq : B.size q = some k) : q ≠ p := by
  rintro rfl
  simp [h.new] at hq

end Blocks

/-- The two memories agree on every block. -/
def SameOn (B : Blocks) (mem mem' : Memory) : Prop :=
  ∀ ⦃p n⦄, B.size p = some n → ∀ i < n, mem' (p + i) = mem (p + i)

/-- The blocks of `B` are held afterwards too, with the same contents. -/
def Preserved (B : Blocks) (mem : Memory) (B' : Blocks) (mem' : Memory) : Prop :=
  ∀ ⦃p n⦄, B.size p = some n → B'.size p = some n ∧ ∀ i < n, mem' (p + i) = mem (p + i)

section Preserved
variable {B B' B'' : Blocks} {mem mem' mem'' : Memory} {p n : Nat}

theorem SameOn.preserved (h : SameOn B mem mem') : Preserved B mem B mem' := fun _ _ hp => ⟨hp, h hp⟩

theorem SameOn.preserved_insert (h : SameOn B mem mem') (hf : B.Fits p n) :
    Preserved B mem (B.insert p n hf) mem' := by
  intro q k hq
  exact ⟨by rw [Blocks.insert_of_ne hf (hf.ne hq), hq], h hq⟩

theorem Preserved.trans (h : Preserved B mem B' mem') (h' : Preserved B' mem' B'' mem'') :
    Preserved B mem B'' mem'' := by
  intro q k hq
  obtain ⟨h1, h2⟩ := h hq
  obtain ⟨h3, h4⟩ := h' h1
  exact ⟨h3, fun i hi => (h4 i hi).trans (h2 i hi)⟩

/-- A block that was not held before may go, or change. -/
theorem Preserved.erase (h : Preserved B mem B' mem') (hp : B.size p = none) :
    Preserved B mem (B'.erase p) mem' := by
  intro q k hq
  have hne : q ≠ p := fun e => by simp [← e, hq] at hp
  exact ⟨by rw [Blocks.erase_of_ne hne, (h hq).1], (h hq).2⟩

theorem Preserved.of_erase (h : SameOn (B.erase p) mem mem') : Preserved (B.erase p) mem B mem' := by
  intro q k hq
  have hne : q ≠ p := fun e => by simp [e] at hq
  exact ⟨Blocks.erase_of_ne hne ▸ hq, h hq⟩

end Preserved

/-! ## The allocator -/

/-- The state an allocator keeps, and the memory of the process. -/
structure Heap (σ : Type) where
  state : σ
  mem : Memory

/-- The program writes one byte. -/
def Heap.store {σ : Type} (h : Heap σ) (a : Nat) (b : UInt8) : Heap σ :=
  { h with mem := Function.update h.mem a b }

@[simp] theorem Heap.store_mem {σ : Type} (h : Heap σ) (a : Nat) (b : UInt8) :
    (h.store a b).mem = Function.update h.mem a b := rfl

/-- An allocator; null is address 0. -/
structure Allocator (σ : Type) where
  allocate : Nat → Heap σ → Nat × Heap σ
  deallocate : Nat → Heap σ → Heap σ
  reallocate : Nat → Nat → Heap σ → Nat × Heap σ

/-- The allocator returns blocks that do not overlap and preserves their contents.
`Good h B` relates its heaps to the blocks the program holds. -/
structure Contract {σ : Type} (A : Allocator σ) where
  Good : Heap σ → Blocks → Prop
  store : ∀ {h B p n i} (b : UInt8), Good h B → B.size p = some n → i < n → Good (h.store (p + i) b) B
  allocate : ∀ {h B n}, Good h B → 0 < n →
    SameOn B h.mem (A.allocate n h).2.mem ∧
    ((A.allocate n h).1 = 0 ∧ Good (A.allocate n h).2 B ∨
      ∃ hf : B.Fits (A.allocate n h).1 n, Good (A.allocate n h).2 (B.insert (A.allocate n h).1 n hf))
  deallocate : ∀ {h B p n}, Good h B → B.size p = some n →
    SameOn (B.erase p) h.mem (A.deallocate p h).mem ∧ Good (A.deallocate p h) (B.erase p)
  deallocate_null : ∀ {h B}, Good h B → SameOn B h.mem (A.deallocate 0 h).mem ∧ Good (A.deallocate 0 h) B
  reallocate : ∀ {h B p n k}, Good h B → B.size p = some n → 0 < k →
    ((A.reallocate p k h).1 = 0 ∧ SameOn B h.mem (A.reallocate p k h).2.mem ∧ Good (A.reallocate p k h).2 B) ∨
    (SameOn (B.erase p) h.mem (A.reallocate p k h).2.mem ∧
      (∀ i < min n k, (A.reallocate p k h).2.mem ((A.reallocate p k h).1 + i) = h.mem (p + i)) ∧
      ∃ hf : (B.erase p).Fits (A.reallocate p k h).1 k,
        Good (A.reallocate p k h).2 ((B.erase p).insert (A.reallocate p k h).1 k hf))

/-! ## An allocator that never reuses memory -/

/-- The state is the address of the next block. A reallocation copies as many bytes as are asked for. -/
def bumpAllocator : Allocator Nat where
  allocate n h := (h.state, { h with state := h.state + n })
  deallocate _ h := h
  reallocate p n h := (h.state, {
    state := h.state + n
    mem := fun a => if h.state ≤ a ∧ a < h.state + n then h.mem (p + (a - h.state)) else h.mem a })

/-- Every block it has given out lies below the next one. -/
def bumpContract : Contract bumpAllocator where
  Good h B := h.state ≠ 0 ∧ ∀ p n, B.size p = some n → p < h.state ∧ p + n ≤ h.state
  store _ hg _ _ := hg
  allocate {h B n} := by
    rintro ⟨hpos, hbelow⟩ hn
    have hf : B.Fits h.state n :=
      { pos := hpos
        new := Option.eq_none_iff_forall_ne_some.mpr fun k hk => absurd (hbelow _ _ hk).1 (Nat.lt_irrefl _)
        apart := fun hq => .inr (hbelow _ _ hq).2 }
    refine ⟨fun _ _ _ _ _ => rfl, .inr ⟨hf, by simp [bumpAllocator, hpos], fun q k hq => ?_⟩⟩
    dsimp only [bumpAllocator] at hq ⊢
    rcases eq_or_ne q h.state with rfl | hne
    · rw [Blocks.insert_self, Option.some.injEq] at hq
      omega
    · have := hbelow q k (Blocks.insert_of_ne hf hne ▸ hq)
      omega
  deallocate {h B p n} := by
    rintro ⟨hpos, hbelow⟩ _
    refine ⟨fun _ _ _ _ _ => rfl, hpos, fun q k hq => hbelow q k ?_⟩
    rcases eq_or_ne q p with rfl | hne
    · simp at hq
    · rwa [Blocks.erase_of_ne hne] at hq
  deallocate_null hg := ⟨fun _ _ _ _ _ => rfl, hg⟩
  reallocate {h B p n k} := by
    rintro ⟨hpos, hbelow⟩ hp hk
    have hbelow' : ∀ q j, (B.erase p).size q = some j → q < h.state ∧ q + j ≤ h.state := by
      intro q j hq
      rcases eq_or_ne q p with rfl | hne
      · simp at hq
      · exact hbelow q j (Blocks.erase_of_ne hne ▸ hq)
    have hf : (B.erase p).Fits h.state k :=
      { pos := hpos
        new := Option.eq_none_iff_forall_ne_some.mpr fun j hj => absurd (hbelow' _ _ hj).1 (Nat.lt_irrefl _)
        apart := fun hq => .inr (hbelow' _ _ hq).2 }
    refine .inr ⟨fun q j hq i hi => ?_, fun i hi => ?_, hf, by simp [bumpAllocator, hpos], fun q j hq => ?_⟩
    · have := hbelow' q j hq
      dsimp only [bumpAllocator]
      rw [if_neg (by omega)]
    · dsimp only [bumpAllocator]
      rw [if_pos (by omega), Nat.add_sub_cancel_left]
    · dsimp only [bumpAllocator] at hq ⊢
      rcases eq_or_ne q h.state with rfl | hne
      · rw [Blocks.insert_self, Option.some.injEq] at hq
        omega
      · have := hbelow' q j (Blocks.insert_of_ne hf hne ▸ hq)
        omega

end MyMalloc
