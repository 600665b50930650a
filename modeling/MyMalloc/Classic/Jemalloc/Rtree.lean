import MyMalloc.Classic.Jemalloc.Extents
import MyMalloc.Lib.Along

/- The lookups of `g_rtree`.

   The rtree is one array of 65536 entries, and a page is looked up at its number
   modulo 65536. `extent_alloc` overwrites the entries of its pages and
   `extent_free` clears them, whatever other pages share them. So a lookup is exact
   as long as no extent comes or goes on a page that shares the entry of a page in
   use. `rtree_exact_iff` says so for every run and every address: the lookups of an
   address are exact all along a run exactly if every `extent_alloc` that writes the
   entry of the address contains the address, and every `extent_free` that clears it
   does so while no other live extent contains the address. -/
namespace MyMalloc.Jemalloc

variable {τ : Type}

/-! ## Runs -/

inductive ExtentCall where
  | alloc (pages : Nat)
  | free (g : Nat)
  | huge (size : Nat)

def ExtentCall.exec (host : Host) : ExtentCall → State τ → State τ
  | .alloc pages, s => (extentAlloc host pages s).2
  | .free g, s => extentFree g s
  | .huge size, s => (hugeAlloc host size s).2

/-- The kernel uses free pages, and only live extents are freed. -/
def ExtentCall.Legal (host : Host) : ExtentCall → State τ → Prop
  | .alloc pages, s => AnswerFits host (extentBytes pages) s
  | .free g, s => s.Live g
  | .huge size, s => AnswerFits host (hugeBytes size) s

/-! ## Exact lookups -/

section threads
variable [DecidableEq τ]

/-- `je_free` once the lookup has given the extent `g`. -/
def freeTo (t : τ) (g ptr : Nat) (s : State τ) : Option (State τ) :=
  if 0 < (s.ext g).runNslots then smallFree t g ptr s else some (extentFree g s)

/-- `je_usable_size` once the lookup has given the extent `g`. -/
def usableOf (g : Nat) (s : State τ) : Nat :=
  if 0 < (s.ext g).runObjSize then (s.ext g).runObjSize else (s.ext g).usize

/-- The lookup of `a` gives the live extent that contains it, or null if there is none, and
`je_free` and `je_usable_size` use that extent. -/
structure Exact (s : State τ) (a : Nat) : Prop where
  found : ∀ g, s.Holds g a → s.rtreeGet a = g
  null : (∀ g, ¬ s.Holds g a) → s.rtreeGet a = 0
  free : ∀ g, s.Holds g a → ∀ t, jeFree t a s = freeTo t g a s
  usable : ∀ g, s.Holds g a → jeUsableSize a s = usableOf g s

/-- It is all in the lookup. -/
theorem exact_of_lookup {s : State τ} {a : Nat} (hfound : ∀ g, s.Holds g a → s.rtreeGet a = g)
    (hnull : (∀ g, ¬ s.Holds g a) → s.rtreeGet a = 0) : Exact s a where
  found := hfound
  null := hnull
  free := by
    intro g hg t
    simp only [jeFree, hfound g hg]
    exact if_neg (Nat.ne_of_gt hg.1.1)
  usable := by
    intro g hg
    simp only [jeUsableSize, hfound g hg]
    exact if_neg (Nat.ne_of_gt hg.1.1)

theorem Exact.holds {s : State τ} {a : Nat} (h : Exact s a) (hne : s.rtreeGet a ≠ 0) : s.Holds (s.rtreeGet a) a := by
  by_contra hno
  refine hne (h.null fun g hg => hno ?_)
  rw [h.found g hg]
  exact hg

/-- The call leaves the lookup of `a` to the extent that contains it. -/
def ExtentCall.Clear (host : Host) (a : Nat) : ExtentCall → State τ → Prop
  | .alloc pages, s =>
    ∀ addr, extentBytes pages ≠ 0 → host.mmap s.mmapCalls = some addr → Writes addr pages a →
      addr ≤ a ∧ a < addr + extentBytes pages
  | .free g, s =>
    Writes (s.ext g).addr ((s.ext g).size / pageSize) a → ∀ k, s.Holds k a → k = g
  | .huge _, _ => True

/-! ## One call -/

theorem Exact.congr {s s' : State τ} {a : Nat} (h : Exact s a) (hext : s'.ext = s.ext) (hexts : s'.exts = s.exts)
    (hfreed : s'.freed = s.freed) (hrtree : s'.rtree = s.rtree) : Exact s' a := by
  have hholds : ∀ g, s'.Holds g a ↔ s.Holds g a := by
    intro g
    rw [State.Holds, State.Holds, State.Live, State.Live, hext, hexts, hfreed]
  have hget : s'.rtreeGet a = s.rtreeGet a := by rw [State.rtreeGet, State.rtreeGet, hrtree]
  apply exact_of_lookup
  · intro g hg
    rw [hget]
    exact h.found g ((hholds g).mp hg)
  · intro hno
    rw [hget]
    exact h.null fun g hg => hno g ((hholds g).mpr hg)

theorem exact_withExtent_iff {s : State τ} {pages addr a : Nat} (hok : ExtentsOk s) (h : Exact s a)
    (hfit : Fits addr (extentBytes pages) s) :
    Exact (s.withExtent pages addr) a ↔ (Writes addr pages a → addr ≤ a ∧ a < addr + extentBytes pages) := by
  constructor
  · -- the entry now leads to the new extent, so the new extent has to contain the address
    intro hex hw
    have hget : (s.withExtent pages addr).rtreeGet a = s.exts + 1 := rtreeSet_of_writes _ _ hw
    have hheld := hex.holds (by rw [hget]; exact Nat.succ_ne_zero _)
    rw [hget] at hheld
    rcases hok.withExtent_holds.mp hheld with ⟨-, hmem⟩ | hold
    · exact hmem
    · have := hold.1.2.1
      omega
  · intro hclear
    by_cases hw : Writes addr pages a
    · have hnew : (s.withExtent pages addr).Holds (s.exts + 1) a :=
        hok.withExtent_holds.mpr (.inl ⟨rfl, hclear hw⟩)
      apply exact_of_lookup
      · intro g hg
        rw [(hok.withExtent hfit).apart hg hnew]
        exact rtreeSet_of_writes _ _ hw
      · exact fun hno => absurd hnew (hno _)
    · -- the address is not in the new extent
      have hout : ¬ (addr ≤ a ∧ a < addr + extentBytes pages) := by
        rintro ⟨h1, h2⟩
        apply hw
        apply writes_of_mem hfit.dvd _ h1 h2
        rw [extentBytes_eq]
        exact Nat.mod_le _ _
      have hget : (s.withExtent pages addr).rtreeGet a = s.rtreeGet a := rtreeSet_of_not_writes _ _ hw
      apply exact_of_lookup
      · intro g hg
        rw [hget]
        exact h.found g ((hok.withExtent_holds.mp hg).resolve_left fun hnew => hout hnew.2)
      · intro hno
        rw [hget]
        exact h.null fun g hg => hno g (hok.withExtent_holds.mpr (.inr hg))

theorem exact_extentFree_iff {s : State τ} {g a : Nat} (hok : ExtentsOk s) (h : Exact s a) (hg : s.Live g) :
    Exact (extentFree g s) a ↔
      (Writes (s.ext g).addr ((s.ext g).size / pageSize) a → ∀ k, s.Holds k a → k = g) := by
  constructor
  · -- the entry is cleared, so no extent may contain the address any more
    intro hex hw k hk
    by_contra hne
    have hget : (extentFree g s).rtreeGet a = 0 := rtreeSet_of_writes _ _ hw
    have := hex.found k (extentFree_holds.mpr ⟨hk, hne⟩)
    exact Nat.ne_of_gt hk.1.1 (this.symm.trans hget)
  · intro hclear
    by_cases hw : Writes (s.ext g).addr ((s.ext g).size / pageSize) a
    · apply exact_of_lookup
      · intro k hk
        obtain ⟨hk, hne⟩ := extentFree_holds.mp hk
        exact absurd (hclear hw k hk) hne
      · exact fun _ => rtreeSet_of_writes _ _ hw
    · have hout : ¬ s.Holds g a := by
        rintro ⟨-, h1, h2⟩
        apply hw
        apply writes_of_mem (hok.dvd_addr hg) _ h1 h2
        exact Nat.le_of_eq (Nat.div_mul_cancel (hok.dvd_size hg)).symm
      have hget : (extentFree g s).rtreeGet a = s.rtreeGet a := rtreeSet_of_not_writes _ _ hw
      apply exact_of_lookup
      · intro k hk
        rw [hget]
        exact h.found k (extentFree_holds.mp hk).1
      · intro hno
        rw [hget]
        refine h.null fun k hk => hno k (extentFree_holds.mpr ⟨hk, ?_⟩)
        rintro rfl
        exact hout hk

omit [DecidableEq τ] in
theorem ExtentCall.extentsOk (host : Host) (c : ExtentCall) (s : State τ) (hl : c.Legal host s) (h : ExtentsOk s) :
    ExtentsOk (c.exec host s) := by
  cases c with
  | alloc pages => exact h.extentAlloc host pages hl
  | free g => exact h.extentFree hl
  | huge size => exact h.mmap host _

/-- A call keeps the lookup of an address exact exactly if it is clear of it. -/
theorem ExtentCall.exact_iff (host : Host) (a : Nat) (c : ExtentCall) (s : State τ) (hl : c.Legal host s)
    (hok : ExtentsOk s) (h : Exact s a) : Exact (c.exec host s) a ↔ c.Clear host a s := by
  cases c with
  | alloc pages =>
    obtain ⟨hno, he⟩ | ⟨addr, h0, ha, he⟩ := extentAlloc_cases host pages s
    · -- no memory: nothing has changed, and the condition asks nothing
      refine iff_of_true ?_ fun addr h0 ha => ?_
      · simp only [exec, he]
        exact h.congr rfl rfl rfl rfl
      · rw [hno.resolve_left h0] at ha
        exact absurd ha (Option.some_ne_none addr).symm
    · simp only [exec, he, Clear]
      rw [exact_withExtent_iff hok h (hl addr ha)]
      constructor
      · intro hw addr' _ ha'
        obtain rfl := Option.some.inj (ha.symm.trans ha')
        exact hw
      · exact fun hw => hw addr h0 ha
  | free g => exact exact_extentFree_iff hok h hl
  | huge size =>
    refine iff_of_true ?_ trivial
    simp only [exec, hugeAlloc]
    obtain ⟨-, he⟩ | ⟨addr, -, -, he⟩ := mmap_cases host (hugeBytes size) s <;>
      · rw [hugeBytes] at he
        rw [he]
        exact h.congr rfl rfl rfl rfl

/-! ## Runs of calls -/

theorem exact_start (a : Nat) : Exact (State.start τ) a := by
  apply exact_of_lookup
  · intro g hg
    exact absurd hg.1.2.1 (Nat.not_le.mpr hg.1.1)
  · exact fun _ => rfl

/-- In a run of extent and huge calls, the lookups of an address are exact in every state
exactly if every call is clear of it. -/
theorem rtree_exact_iff (host : Host) (calls : List ExtentCall) (a : Nat)
    (hlegal : Along (ExtentCall.exec host) (ExtentCall.Legal host) calls (State.start τ)) :
    (∀ pre, pre <+: calls → Exact (runSteps (ExtentCall.exec host) pre (State.start τ)) a) ↔
      Along (ExtentCall.exec host) (ExtentCall.Clear host a) calls (State.start τ) :=
  prefixes_iff_along (I := ExtentsOk) (ExtentCall.extentsOk host) (ExtentCall.exact_iff host a) ExtentsOk.start
    (exact_start a) hlegal

end threads

/-- Answers of one page, 256 MiB apart, are all legal. -/
theorem aliasHost_fits (s : State τ) (k : Nat) (hk : k ≤ 1) (hcalls : s.mmapCalls = k)
    (hfree : ∀ a, 1048576 + 268435456 * k ≤ a → s.mapped a = false) : AnswerFits aliasHost (extentBytes 1) s := by
  intro addr ha
  obtain rfl := Option.some.inj ha
  rw [hcalls]
  refine ⟨?_, by omega, fun a h1 _ => hfree a h1⟩
  rw [show pageSize = 4096 from rfl]
  omega

theorem first_page_legal :
    Along (ExtentCall.exec aliasHost) (ExtentCall.Legal aliasHost) [.alloc 1] (State.start Nat) :=
  ⟨aliasHost_fits _ 0 (by decide) rfl fun _ _ => rfl, trivial⟩

/-- One extent is found. -/
theorem first_page_exact :
    Along (ExtentCall.exec aliasHost) (ExtentCall.Legal aliasHost) [.alloc 1] (State.start Nat) ∧
      ∀ pre, pre <+: [.alloc 1] → Exact (runSteps (ExtentCall.exec aliasHost) pre (State.start Nat)) 1048576 := by
  refine ⟨first_page_legal, (rtree_exact_iff aliasHost _ 1048576 first_page_legal).mpr ⟨?_, trivial⟩⟩
  intro addr _ ha _
  obtain rfl := Option.some.inj ha
  decide

/-- Two extents of one page, 256 MiB apart: the lookup of the first gives the second, and once
the second is freed it gives null. -/
theorem second_page_aliases :
    Along (ExtentCall.exec aliasHost) (ExtentCall.Legal aliasHost) [.alloc 1, .alloc 1] (State.start Nat) ∧
      (let s := runSteps (ExtentCall.exec aliasHost) [.alloc 1, .alloc 1] (State.start Nat)
       s.Holds 1 1048576 ∧ s.rtreeGet 1048576 = 2 ∧ (extentFree 2 s).Holds 1 1048576 ∧
        (extentFree 2 s).rtreeGet 1048576 = 0) := by
  refine ⟨⟨aliasHost_fits _ 0 (by decide) rfl fun _ _ => rfl, aliasHost_fits _ 1 (by decide) rfl fun a ha => ?_, trivial⟩, ?_⟩
  · exact if_neg (show ¬ (1048576 ≤ a ∧ a < 1048576 + extentBytes 1) by rw [extentBytes_eq]; omega)
  · simp only [State.Holds, State.Live]
    decide +kernel

end MyMalloc.Jemalloc
