import MyMalloc.Classic.Tcmalloc.HeapOk

/- The page map (`page_map.h`, `page_map.cpp`).

   A page number is looked up in two steps: nine of its bits choose a leaf, ten bits
   an entry of it. `PageHeap` uses the tree flattened to its entries, and `flat_set`
   and `flat_mapSpan` say that this loses nothing.

   What the tree is for is a map on page numbers, `lastSet`. It is that map as long as
   no two of the page numbers in play have the same nineteen low bits: pages 4 GiB
   apart share an entry (`get_lastSet_iff`). -/
namespace MyMalloc.Tcmalloc

def kRootBits : Nat := 9
def kLeafBits : Nat := 10
def kRootSize : Nat := 2 ^ kRootBits
def kLeafSize : Nat := 2 ^ kLeafBits

/-- `root_`: a leaf is made when an entry of it is first set. -/
structure PageMap where
  root : Nat → Option (Nat → Nat)

def rootIdx (pn : Nat) : Nat := (pn >>> kLeafBits) &&& (kRootSize - 1)
def leafIdx (pn : Nat) : Nat := pn &&& (kLeafSize - 1)

namespace PageMap

def empty : PageMap := ⟨fun _ => none⟩

def get (m : PageMap) (pn : Nat) : Nat :=
  match m.root (rootIdx pn) with
  | none => 0
  | some leaf => leaf (leafIdx pn)

def set (pn span : Nat) (m : PageMap) : PageMap :=
  let leaf := (m.root (rootIdx pn)).getD (fun _ => 0)
  ⟨Function.update m.root (rootIdx pn) (some (Function.update leaf (leafIdx pn) span))⟩

/-- The loop of `map_span` over a span of `n` pages from `start`. -/
def mapSpan (start span : Nat) : Nat → PageMap → PageMap
  | 0, m => m
  | n + 1, m => (mapSpan start span n m).set ((start + n) % 2^64) span

/-! ## The tree and its entries -/

/-- The entries of the tree; those of a leaf that does not exist are null. -/
def flat (m : PageMap) : Nat × Nat → Nat := fun x =>
  match m.root x.1 with
  | none => 0
  | some leaf => leaf x.2

theorem get_eq_flat (m : PageMap) (pn : Nat) : m.get pn = m.flat (slot pn) := rfl

theorem flat_set (pn span : Nat) (m : PageMap) :
    (m.set pn span).flat = Function.update m.flat (slot pn) span := by
  funext x
  obtain ⟨i, j⟩ := x
  have hslot : slot pn = (rootIdx pn, leafIdx pn) := rfl
  rw [hslot, Function.update_apply]
  unfold flat set
  dsimp only
  by_cases hi : i = rootIdx pn
  · subst hi
    rw [Function.update_self]
    by_cases hj : j = leafIdx pn
    · rw [hj, if_pos rfl]
      exact Function.update_self ..
    · rw [if_neg (fun e => hj (Prod.mk.inj e).2)]
      dsimp only
      rw [Function.update_of_ne hj]
      cases m.root (rootIdx pn) <;> rfl
  · rw [Function.update_of_ne hi, if_neg (fun e => hi (Prod.mk.inj e).1)]

theorem slot_mod (pn : Nat) : slot (pn % 2^64) = slot pn := slot_eq_iff.mpr (by omega)

/-- `map_span` on the tree is `map_span` on the entries, as the page heap uses it. -/
theorem flat_mapSpan (start span n : Nat) (m : PageMap) :
    (m.mapSpan start span n).flat = PageHeap.mapPages start span n m.flat := by
  induction n with
  | zero => rfl
  | succ n ih => rw [mapSpan, flat_set, PageHeap.mapPages, ih, slot_mod]

/-! ## The map it is for -/

/-- The calls that change a page map. -/
inductive Call where
  | set (pn span : Nat)
  | mapSpan (start length span : Nat)
  deriving DecidableEq, Repr

/-- The page numbers a call sets, and the span it sets them to. -/
def Call.pages : Call → List Nat
  | .set pn _ => [pn]
  | .mapSpan start length _ => (List.range length).map (fun i => (start + i) % 2^64)

def Call.span : Call → Nat
  | .set _ span => span
  | .mapSpan _ _ span => span

def step (m : PageMap) : Call → PageMap
  | .set pn span => m.set pn span
  | .mapSpan start length span => m.mapSpan start span length

def run (calls : List Call) : PageMap := calls.foldl step empty

/-- The span most recently set for page number `q` itself; null if none was. -/
def lastSet (calls : List Call) (q : Nat) : Nat :=
  calls.foldl (fun v c => if q ∈ c.pages then c.span else v) 0

theorem get_step (m : PageMap) (c : Call) (q : Nat) :
    (m.step c).get q = if slot q ∈ c.pages.map slot then c.span else m.get q := by
  cases c with
  | set pn span =>
    rw [step, get_eq_flat, flat_set, Function.update_apply]
    simp [Call.pages, Call.span, get_eq_flat]
  | mapSpan start length span =>
    rw [step, get_eq_flat]
    induction length with
    | zero => simp [mapSpan, Call.pages, get_eq_flat]
    | succ n ih =>
      rw [mapSpan, flat_set, Function.update_apply, ih]
      simp only [Call.pages, Call.span, List.map_map, List.range_succ, List.map_append, List.mem_append,
        List.map_cons, List.map_nil, List.mem_singleton]
      by_cases h : slot q = slot ((start + n) % 2^64)
      · rw [if_pos h, if_pos (.inr h)]
      · rw [if_neg h, if_congr (or_iff_left h).symm rfl rfl]

/-- No call sets an entry of `q` for another page. -/
def Separate (calls : List Call) (q : Nat) : Prop := ∀ c ∈ calls, ∀ p ∈ c.pages, p % 2^19 = q % 2^19 → p = q

/-- The entry of `q` and the last span set for `q` change together. -/
theorem get_foldl {calls : List Call} {q : Nat} (h : Separate calls q) (m : PageMap) :
    (calls.foldl step m).get q =
      calls.foldl (fun v c => if q ∈ c.pages then c.span else v) (m.get q) := by
  induction calls generalizing m with
  | nil => rfl
  | cons c calls ih =>
    have hmem : slot q ∈ c.pages.map slot ↔ q ∈ c.pages := by
      constructor
      · intro hs
        obtain ⟨p, hp, hslot⟩ := List.mem_map.mp hs
        have hpq := h c List.mem_cons_self p hp (slot_eq_iff.mp hslot)
        exact hpq ▸ hp
      · exact fun hq => List.mem_map_of_mem hq
    rw [List.foldl_cons, List.foldl_cons, ih (fun d hd => h d (List.mem_cons_of_mem _ hd)), get_step,
      if_congr hmem rfl rfl]

/-- `P` are the page numbers that may be set. The map answers `q` right after every such sequence of
    calls exactly if no other page number of `P` has the nineteen low bits of `q`. -/
theorem get_lastSet_iff (P : Set Nat) (q : Nat) :
    (∀ calls : List Call, (∀ c ∈ calls, ∀ p ∈ c.pages, p ∈ P) → (run calls).get q = lastSet calls q) ↔
      ∀ p ∈ P, p % 2^19 = q % 2^19 → p = q := by
  constructor
  · intro h p hp heq
    by_contra hne
    -- one call of `set` for the other page is enough
    have hrun := h [.set p 1] (by simpa [Call.pages] using hp)
    have hslot : slot q = slot p := slot_eq_iff.mpr heq.symm
    have hget : (run [.set p 1]).get q = 1 := by
      rw [run, List.foldl_cons, List.foldl_nil, get_step, if_pos (by simp [Call.pages, hslot])]
      rfl
    have hlast : lastSet [.set p 1] q = 0 := by simp [lastSet, Call.pages, Ne.symm hne]
    omega
  · intro hinj calls hcalls
    exact get_foldl (fun c hc p hp => hinj p (hcalls c hc p hp)) empty

/-- Two pages 4 GiB apart, both of user-space addresses: the second reads what was set for the first. -/
theorem get_shared_entry : ∃ p q : Nat, p < 2^47 / 8192 ∧ q < 2^47 / 8192 ∧
    (run [.set p 1]).get q ≠ lastSet [.set p 1] q := by
  refine ⟨524304, 16, by decide, by decide, ?_⟩
  decide

end PageMap

end MyMalloc.Tcmalloc
