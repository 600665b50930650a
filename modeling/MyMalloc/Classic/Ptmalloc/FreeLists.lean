import MyMalloc.Lib.Loops
import MyMalloc.Lib.Update
import MyMalloc.Classic.Ptmalloc.Coalesce

/- The free lists of an arena (`bins.cpp`).

   The links of the lists are words of the chunks themselves, next to their headers,
   and the sentinels of the bins are words of the arena. `FreeLists` says which lists
   these words make: which chunks there are, that no two of them overlap, and which
   chunk is in which list. Each operation of the source on the lists is then one on
   lists of addresses, and every word but a link keeps its value. -/
namespace MyMalloc.Ptmalloc.Words

open Exec

variable {τ : Type}

/-- The word `fd` of the chunk at `a`. -/
def fdOf (mem : Nat → Nat) (a : Nat) : Nat := mem (a + 16)

def bkOf (mem : Nat → Nat) (a : Nat) : Nat := mem (a + 24)

/-- A fastbin or a bin of an arena. -/
inductive Shelf where
  | fast (i : Nat)
  | bin (i : Nat)
  deriving DecidableEq, Repr

def Shelf.Valid : Shelf → Prop
  | .fast i => i < nFastbins
  | .bin i => 1 ≤ i ∧ i < nBins

/-- The size of the chunk at `c`. -/
def sizeAt (N : Nat → Option Nat) (c : Nat) : Nat := (N c).getD 0

theorem sizeAt_eq {N : Nat → Option Nat} {c n : Nat} (h : N c = some n) : sizeAt N c = n := by
  rw [sizeAt, h]
  rfl

/-- Byte `a` is one of the chunk at `c`. -/
def Covers (N : Nat → Option Nat) (c a : Nat) : Prop := ∃ n, N c = some n ∧ c ≤ a ∧ a < c + n

/-- The chunks of an arena and its free lists: `N` gives the size of the chunk at an address, `L` the
    list of a fastbin or bin. -/
structure FreeLists (mapped : Nat → Bool) (mem : Nat → Nat) (base : Nat) (fast : Nat → Nat)
    (N : Nat → Option Nat) (L : Shelf → List Nat) : Prop where
  chunk : ∀ c n, N c = some n → 32 ≤ n ∧ 16 ∣ n ∧ 16 ∣ c ∧ 0 < c ∧ c + n < 2^63
  apart : ∀ c n d m, N c = some n → N d = some m → c < d → c + n ≤ d
  words : ∀ c n, N c = some n → ∀ a, c ≤ a → a ≤ c + n + 8 → mapped a = true
  head : ∀ c n, N c = some n → sizeBits (mem (c + 8)) = n
  home : ∀ a, base ≤ a → a + 8 ≤ base + 2168 → mapped a = true
  off : ∀ c n, N c = some n → c + n + 16 ≤ base ∨ base + 2168 ≤ c
  loop : ∀ i, 1 ≤ i → i < nBins → Loop (fdOf mem) (bkOf mem) (sentinel base i) (L (.bin i))
  chain : ∀ i < nFastbins, Chain 0 (fdOf mem) (fast i) (L (.fast i))
  listed : ∀ sh c, c ∈ L sh → sh.Valid ∧ ∃ n, N c = some n
  once : ∀ sh sh' c, c ∈ L sh → c ∈ L sh' → sh = sh'

/-- What holds of arena `k`. -/
abbrev State.Lists (s : State τ) (k : Nat) (N : Nat → Option Nat) (L : Shelf → List Nat) : Prop :=
  FreeLists s.mapped s.mem (s.arena k).base (s.arena k).fast N L

/-! ## Nodes and their words -/

/-- A chunk, or the sentinel of a bin. -/
def Node (base : Nat) (N : Nat → Option Nat) (a : Nat) : Prop :=
  (∃ n, N a = some n) ∨ ∃ i, 1 ≤ i ∧ i < nBins ∧ a = sentinel base i

/-- `a` is no link, neither of a listed chunk nor of a bin. -/
def OffLinks (base : Nat) (L : Shelf → List Nat) (a : Nat) : Prop :=
  (∀ sh c, c ∈ L sh → a ≠ c + 16 ∧ a ≠ c + 24) ∧ (a < base + 120 ∨ base + 2168 ≤ a)

theorem OffLinks.update {base x v a : Nat} {L : Shelf → List Nat} {mem : Nat → Nat} (hx : OffLinks base L x)
    (ha : ¬ OffLinks base L a) : Function.update mem x v a = mem a :=
  Function.update_of_ne (fun e : a = x => ha (e ▸ hx)) _ _

theorem update_word (mem : Nat → Nat) (e x v a : Nat) :
    Function.update mem (x + e) v (a + e) = Function.update (fun a => mem (a + e)) x v a := by
  by_cases h : a = x
  · subst h
    rw [Function.update_self, Function.update_self]
  · rw [Function.update_of_ne h, Function.update_of_ne (by omega)]

/-- `l` is what the links of a fastbin or bin make. -/
def Shelf.Holds (mem : Nat → Nat) (base : Nat) (fast : Nat → Nat) : Shelf → List Nat → Prop
  | .fast i, l => Chain 0 (fdOf mem) (fast i) l
  | .bin i, l => Loop (fdOf mem) (bkOf mem) (sentinel base i) l

/-- The nodes with the links of a list: its chunks and its sentinel. -/
def Shelf.On (base : Nat) (sh : Shelf) (l : List Nat) (a : Nat) : Prop := (∃ i, sh = .bin i ∧ a = sentinel base i) ∨ a ∈ l

theorem Shelf.Holds.nodup {mem fast : Nat → Nat} {base : Nat} {sh : Shelf} {l : List Nat}
    (h : sh.Holds mem base fast l) : l.Nodup := by
  cases sh with
  | fast i => exact Chain.nodup h
  | bin i => exact Loop.nodup h

theorem Shelf.Holds.congr {mem mem' fast fast' : Nat → Nat} {base : Nat} {sh : Shelf} {l : List Nat}
    (h : sh.Holds mem base fast l) (hfast : ∀ i, sh = .fast i → fast' i = fast i)
    (hlinks : ∀ a, sh.On base l a → fdOf mem' a = fdOf mem a ∧ bkOf mem' a = bkOf mem a) :
    sh.Holds mem' base fast' l := by
  cases sh with
  | fast i =>
    change Chain 0 (fdOf mem') (fast' i) l
    rw [hfast i rfl]
    exact Chain.congr h fun a ha => (hlinks a (.inr ha)).1
  | bin i =>
    have hon : ∀ a, a = sentinel base i ∨ a ∈ l → (Shelf.bin i).On base l a := fun a ha =>
      ha.imp_left fun e => ⟨i, rfl, e⟩
    exact Loop.congr h (fun a ha => (hlinks a (hon a ha)).1) (fun a ha => (hlinks a (hon a ha)).2)

namespace FreeLists
variable {mapped : Nat → Bool} {mem mem' : Nat → Nat} {base : Nat} {fast : Nat → Nat}
  {N : Nat → Option Nat} {L : Shelf → List Nat} {a b c d n i : Nat} {sh : Shelf}

variable (h : FreeLists mapped mem base fast N L)
include h

theorem node_of_mem (hc : c ∈ L sh) : Node base N c :=
  .inl (h.listed sh c hc).2

omit h in
theorem node_sentinel (h1 : 1 ≤ i) (h2 : i < nBins) : Node base N (sentinel base i) :=
  .inr ⟨i, h1, h2, rfl⟩

theorem holds (hsh : sh.Valid) : sh.Holds mem base fast (L sh) := by
  cases sh with
  | fast i => exact h.chain i hsh
  | bin i => exact h.loop i hsh.1 hsh.2

theorem nodup (sh : Shelf) : (L sh).Nodup := by
  cases hl : L sh with
  | nil => exact List.nodup_nil
  | cons c l => exact hl ▸ (h.holds (h.listed sh c (by simp [hl])).1).nodup

theorem node_on (hsh : sh.Valid) (ha : sh.On base (L sh) a) : Node base N a := by
  rcases ha with ⟨i, rfl, rfl⟩ | ha
  · exact node_sentinel hsh.1 hsh.2
  · exact h.node_of_mem ha

theorem fd_ne_bk (ha : Node base N a) (hb : Node base N b) :
    a + 16 ≠ b + 24 := by
  have h128 : nBins = 128 := rfl
  rcases ha with ⟨n, hn⟩ | ⟨i, hi, hi', rfl⟩ <;> rcases hb with ⟨m, hm⟩ | ⟨j, hj, hj', rfl⟩
  · have h1 := h.chunk a n hn
    have h2 := h.chunk b m hm
    omega
  · have h1 := h.chunk a n hn
    have h2 := h.off a n hn
    unfold sentinel
    omega
  · have h1 := h.chunk b m hm
    have h2 := h.off b m hm
    unfold sentinel
    omega
  · unfold sentinel
    omega

theorem node_mapped (ha : Node base N a) :
    mapped (a + 16) = true ∧ mapped (a + 24) = true := by
  have h128 : nBins = 128 := rfl
  rcases ha with ⟨n, hn⟩ | ⟨i, hi, hi', rfl⟩
  · have h1 := h.chunk a n hn
    exact ⟨h.words a n hn _ (by omega) (by omega), h.words a n hn _ (by omega) (by omega)⟩
  · unfold sentinel
    exact ⟨h.home _ (by omega) (by omega), h.home _ (by omega) (by omega)⟩

theorem node_ne_zero (ha : Node base N a) : a ≠ 0 := by
  rcases ha with ⟨n, hn⟩ | ⟨i, hi, hi', rfl⟩
  · have h1 := h.chunk a n hn
    omega
  · unfold sentinel
    omega

theorem sentinel_ne (hc : N c = some n) (hi : i < nBins) :
    c ≠ sentinel base i := by
  have h128 : nBins = 128 := rfl
  have h1 := h.chunk c n hc
  have h2 := h.off c n hc
  unfold sentinel
  omega

theorem disjoint {m : Nat} (hc : N c = some n) (hd : N d = some m)
    (hne : d ≠ c) : d + m ≤ c ∨ c + n ≤ d := by
  rcases Nat.lt_or_gt_of_ne hne with hlt | hlt
  · exact .inl (h.apart d m c n hd hc hlt)
  · exact .inr (h.apart c n d m hc hd hlt)

theorem not_listed_inside (hc : N c = some n) (h1 : c < a) (h2 : a < c + n)
    (sh : Shelf) : a ∉ L sh := by
  intro ha
  obtain ⟨-, m, hm⟩ := h.listed sh a ha
  have := h.apart c n a m hc hm h1
  omega

/-- The words around the end of a chunk, and its header, are no links. -/
theorem offLinks_head (hc : N c = some n) :
    OffLinks base L (c + 8) ∧ OffLinks base L (c + n) ∧ OffLinks base L (c + n + 8) := by
  have h1 := h.chunk c n hc
  have h2 := h.off c n hc
  have key : ∀ sh d, d ∈ L sh → d + 16 ≠ c + 8 ∧ d + 24 ≠ c + 8 ∧ d + 16 ≠ c + n ∧ d + 24 ≠ c + n ∧
      d + 16 ≠ c + n + 8 ∧ d + 24 ≠ c + n + 8 := by
    intro sh d hd
    obtain ⟨-, m, hm⟩ := h.listed sh d hd
    have h3 := h.chunk d m hm
    by_cases hne : d = c
    · omega
    · have := h.disjoint hc hm hne
      omega
  refine ⟨⟨fun sh d hd => ?_, by omega⟩, ⟨fun sh d hd => ?_, by omega⟩, fun sh d hd => ?_, by omega⟩ <;>
  · have := key sh d hd
    omega

omit h in
/-- The lists of a new arena: whatever chunks there are, none is listed. -/
theorem init (chunk : ∀ c n, N c = some n → 32 ≤ n ∧ 16 ∣ n ∧ 16 ∣ c ∧ 0 < c ∧ c + n < 2^63)
    (apart : ∀ c n d m, N c = some n → N d = some m → c < d → c + n ≤ d)
    (words : ∀ c n, N c = some n → ∀ a, c ≤ a → a ≤ c + n + 8 → mapped a = true)
    (head : ∀ c n, N c = some n → sizeBits (mem (c + 8)) = n)
    (home : ∀ a, base ≤ a → a + 8 ≤ base + 2168 → mapped a = true)
    (off : ∀ c n, N c = some n → c + n + 16 ≤ base ∨ base + 2168 ≤ c) :
    FreeLists mapped (initBins base mem) base (fun _ => 0) N (fun _ => []) := by
  have h128 : nBins = 128 := rfl
  refine ⟨chunk, apart, words, fun c n hc => ?_, home, off, fun i h1 h2 => .nil ?_ ?_, fun i hi => rfl, nofun, nofun⟩
  · have h1 := chunk c n hc
    have h2 := off c n hc
    rw [initBins, if_neg (by omega)]
    exact head c n hc
  · unfold fdOf sentinel
    rw [initBins, if_pos (by omega)]
    omega
  · unfold bkOf sentinel
    rw [initBins, if_pos (by omega)]
    omega

/-! ## Writes off the links -/

/-- New headers: the lists are as their links are. -/
theorem retag {N' : Nat → Option Nat}
    (hoff : ∀ a, ¬ OffLinks base L a → mem' a = mem a)
    (chunk : ∀ c n, N' c = some n → 32 ≤ n ∧ 16 ∣ n ∧ 16 ∣ c ∧ 0 < c ∧ c + n < 2^63)
    (apart : ∀ c n d m, N' c = some n → N' d = some m → c < d → c + n ≤ d)
    (words : ∀ c n, N' c = some n → ∀ a, c ≤ a → a ≤ c + n + 8 → mapped a = true)
    (head : ∀ c n, N' c = some n → sizeBits (mem' (c + 8)) = n)
    (off : ∀ c n, N' c = some n → c + n + 16 ≤ base ∨ base + 2168 ≤ c)
    (listed : ∀ sh c, c ∈ L sh → ∃ n, N' c = some n) : FreeLists mapped mem' base fast N' L := by
  have h128 : nBins = 128 := rfl
  have hholds : ∀ sh : Shelf, sh.Valid → sh.Holds mem' base fast (L sh) := fun sh hsh =>
    (h.holds hsh).congr (fun _ _ => rfl) fun a ha => by
      have hoff' : ¬ OffLinks base L (a + 16) ∧ ¬ OffLinks base L (a + 24) := by
        rcases ha with ⟨i, rfl, rfl⟩ | ha
        · have hi : 1 ≤ i ∧ i < nBins := hsh
          unfold sentinel
          exact ⟨fun ho => by have := ho.2; omega, fun ho => by have := ho.2; omega⟩
        · exact ⟨fun ho => (ho.1 sh a ha).1 rfl, fun ho => (ho.1 sh a ha).2 rfl⟩
      exact ⟨hoff _ hoff'.1, hoff _ hoff'.2⟩
  exact ⟨chunk, apart, words, head, h.home, off, fun i h1 h2 => hholds (.bin i) ⟨h1, h2⟩, fun i => hholds (.fast i),
    fun sh c hc => ⟨(h.listed sh c hc).1, listed sh c hc⟩, h.once⟩

theorem offLinks_inside (hc : N c = some n) (hout : ∀ sh, c ∉ L sh)
    (h1 : c ≤ a) (h2 : a < c + n) : OffLinks base L a := by
  have hoff := h.off c n hc
  refine ⟨fun sh d hd => ?_, by omega⟩
  obtain ⟨-, m, hm⟩ := h.listed sh d hd
  have hch := h.chunk d m hm
  have := h.disjoint hc hm fun e => hout sh (e ▸ hd)
  omega

/-- A word that is no link, with the size it says. -/
theorem setSize {v : Nat} (ha : OffLinks base L a)
    (hv : ∀ c n, N c = some n → c + 8 = a → sizeBits v = n) :
    FreeLists mapped (Function.update mem a v) base fast N L := by
  refine h.retag (fun x hx => OffLinks.update ha hx) h.chunk h.apart h.words (fun c n hc => ?_) h.off
    (fun sh c hc => (h.listed sh c hc).2)
  by_cases e : c + 8 = a
  · rw [e, Function.update_self]
    exact hv c n hc e
  · rw [Function.update_of_ne e]
    exact h.head c n hc

theorem setHead (hc : N c = some n) {v : Nat} (hv : sizeBits v = n) :
    FreeLists mapped (Function.update mem (c + 8) v) base fast N L := by
  refine h.setSize (h.offLinks_head hc).1 fun d m hd e => ?_
  obtain rfl : d = c := by omega
  exact hv.trans (Option.some.inj (hc.symm.trans hd))

theorem setFlags (hc : N c = some n) {v : Nat}
    (hv : sizeBits v = sizeBits (mem (c + n + 8))) :
    FreeLists mapped (Function.update mem (c + n + 8) v) base fast N L := by
  refine h.setSize (h.offLinks_head hc).2.2 fun d m hd e => ?_
  rw [hv, ← e]
  exact h.head d m hd

/-- A list becomes `l`: only links of its nodes, or of chunks in no list, are written. -/
theorem relink (hsh : sh.Valid) {fast' : Nat → Nat} {l : List Nat}
    {W : Nat → Prop} (hmem : ∀ a, (∀ w, W w → a ≠ w + 16 ∧ a ≠ w + 24) → mem' a = mem a)
    (hown : ∀ w, W w → sh.On base (L sh) w ∨ (∃ n, N w = some n) ∧ ∀ sh, w ∉ L sh)
    (hfast : ∀ i, sh ≠ .fast i → fast' i = fast i) (hnew : sh.Holds mem' base fast' l)
    (hl : ∀ c ∈ l, (∃ n, N c = some n) ∧ ∀ sh', sh' ≠ sh → c ∉ L sh') :
    FreeLists mapped mem' base fast' N (Function.update L sh l) := by
  have h128 : nBins = 128 := rfl
  have hW : ∀ w, W w → Node base N w := fun w hw => (hown w hw).elim (h.node_on hsh) fun hout => .inl hout.1
  -- a node whose links are not written keeps them
  have hkeep : ∀ a, Node base N a → ¬ W a → fdOf mem' a = fdOf mem a ∧ bkOf mem' a = bkOf mem a := by
    intro a ha hn
    constructor
    · refine hmem _ fun w hw => ⟨fun e => ?_, h.fd_ne_bk ha (hW w hw)⟩
      exact hn ((Nat.add_right_cancel e : a = w) ▸ hw)
    · refine hmem _ fun w hw => ⟨fun e => h.fd_ne_bk (hW w hw) ha e.symm, fun e => ?_⟩
      exact hn ((Nat.add_right_cancel e : a = w) ▸ hw)
  -- no node of another list is written
  have hother : ∀ sh', sh' ≠ sh → sh'.Valid → ∀ a, sh'.On base (L sh') a → ¬ W a := by
    intro sh' hne hv a ha hw
    rcases ha with ⟨j, rfl, rfl⟩ | ha
    · have hno : ∀ n, N (sentinel base j) ≠ some n := fun n hn => h.sentinel_ne hn hv.2 rfl
      rcases hown _ hw with (⟨i, rfl, e⟩ | hm) | ⟨⟨n, hn⟩, -⟩
      · exact hne (congrArg Shelf.bin (by unfold sentinel at e; omega))
      · exact (h.listed _ _ hm).2.elim hno
      · exact hno n hn
    · obtain ⟨-, n, hn⟩ := h.listed sh' a ha
      rcases hown a hw with (⟨i, rfl, e⟩ | hm) | hout
      · exact h.sentinel_ne hn hsh.2 e
      · exact hne (h.once sh' sh a ha hm)
      · exact hout.2 sh' ha
  have hholds : ∀ sh' : Shelf, sh'.Valid → sh'.Holds mem' base fast' (Function.update L sh l sh') := by
    intro sh' hv
    rcases eq_or_ne sh' sh with rfl | hne
    · rwa [Function.update_self]
    · rw [Function.update_of_ne hne]
      exact (h.holds hv).congr (fun i e => hfast i fun e' => hne (e.trans e'.symm)) fun a ha =>
        hkeep a (h.node_on hv ha) (hother sh' hne hv a ha)
  refine ⟨h.chunk, h.apart, h.words, fun c n hc => ?_, h.home, h.off, fun j h1 h2 => hholds (.bin j) ⟨h1, h2⟩,
    fun j hj => hholds (.fast j) hj, fun sh' c hc => ?_, fun sh' sh'' c hc hc' => ?_⟩
  · rw [hmem (c + 8), h.head c n hc]
    intro w hw
    have h1 := h.chunk c n hc
    have h2 := h.off c n hc
    rcases hW w hw with ⟨m, hm⟩ | ⟨j, hj, hj', rfl⟩
    · have h3 := h.chunk w m hm
      rcases Nat.lt_trichotomy w c with hlt | rfl | hlt
      · have := h.apart w m c n hm hc hlt
        omega
      · omega
      · have := h.apart c n w m hc hm hlt
        omega
    · unfold sentinel
      omega
  · rcases mem_update hc with ⟨rfl, hm⟩ | ⟨-, hm⟩
    · exact ⟨hsh, (hl c hm).1⟩
    · exact h.listed sh' c hm
  · rcases mem_update hc with ⟨e, hc⟩ | ⟨hne, hc⟩ <;> rcases mem_update hc' with ⟨e', hc'⟩ | ⟨hne', hc'⟩
    · exact e.trans e'.symm
    · exact absurd hc' ((hl c hc).2 sh'' hne')
    · exact absurd hc ((hl c hc').2 sh' hne)
    · exact h.once sh' sh'' c hc hc'

end FreeLists

/-- What `pushFront` leaves in memory. -/
def pushMem (mem : Nat → Nat) (snt p : Nat) : Nat → Nat :=
  Function.update (Function.update (Function.update (Function.update mem (p + 16) (fdOf mem snt)) (p + 24) snt)
    (snt + 16) p) (fdOf mem snt + 24) p

/-- What `pushBack` leaves in memory. -/
def pushBackMem (mem : Nat → Nat) (snt p : Nat) : Nat → Nat :=
  Function.update (Function.update (Function.update (Function.update mem (p + 16) snt) (p + 24) (bkOf mem snt))
    (snt + 24) p) (bkOf mem snt + 16) p

/-- What `unlink` leaves in memory. -/
def unlinkMem (mem : Nat → Nat) (p : Nat) : Nat → Nat :=
  Function.update (Function.update mem (fdOf mem p + 24) (bkOf mem p)) (bkOf mem p + 16) (fdOf mem p)

/-- `p` comes between the sentinel and the node that its word at `f` leads to; `b` is the word back. -/
def insertMem (mem : Nat → Nat) (snt p f b : Nat) : Nat → Nat :=
  Function.update (Function.update (Function.update (Function.update mem (p + f) (mem (snt + f))) (p + b) snt)
    (snt + f) p) (mem (snt + f) + b) p

theorem insertMem_loop {mem : Nat → Nat} {snt p f b : Nat} {l : List Nat}
    (h : Loop (fun a => mem (a + f)) (fun a => mem (a + b)) snt l) (hs : p ≠ snt) (hp : p ∉ l)
    (hne : ∀ x y, x = snt ∨ x ∈ p :: l → y = snt ∨ y ∈ p :: l → x + f ≠ y + b) :
    Loop (fun a => insertMem mem snt p f b (a + f)) (fun a => insertMem mem snt p f b (a + b)) snt (p :: l) := by
  have hnp : p = snt ∨ p ∈ p :: l := .inr List.mem_cons_self
  have hnf : mem (snt + f) = snt ∨ mem (snt + f) ∈ p :: l :=
    (h.fd_mem (.inl rfl)).imp_right (List.mem_cons_of_mem _)
  refine (h.push hs hp).congr (fun a ha => ?_) (fun a ha => ?_)
  · unfold insertMem
    rw [Function.update_of_ne (hne a _ ha hnf), update_word]
    by_cases e : a = snt
    · rw [e, Function.update_self, Function.update_self]
    · rw [Function.update_of_ne e, Function.update_of_ne e, Function.update_of_ne (hne a p ha hnp), update_word]
  · unfold insertMem
    rw [update_word]
    by_cases e : a = mem (snt + f)
    · rw [e, Function.update_self, Function.update_self]
    · rw [Function.update_of_ne e, Function.update_of_ne e,
        Function.update_of_ne (hne snt a (.inl rfl) ha).symm, update_word]
      by_cases e' : a = p
      · rw [e', Function.update_self, Function.update_self]
      · rw [Function.update_of_ne e', Function.update_of_ne e', Function.update_of_ne (hne p a hnp ha).symm]

namespace FreeLists
variable {mapped : Nat → Bool} {mem mem' : Nat → Nat} {base : Nat} {fast : Nat → Nat}
  {N : Nat → Option Nat} {L : Shelf → List Nat} {a c p n i : Nat}

variable (h : FreeLists mapped mem base fast N L)
include h

theorem insert (hi : (Shelf.bin i).Valid) (hp : N p = some n)
    (hout : ∀ sh, p ∉ L sh) {q : Nat} {l : List Nat} (hq : (Shelf.bin i).On base (L (.bin i)) q)
    (hmem : ∀ a, (∀ w, w = p ∨ w = sentinel base i ∨ w = q → a ≠ w + 16 ∧ a ≠ w + 24) → mem' a = mem a)
    (hloop : Loop (fdOf mem') (bkOf mem') (sentinel base i) l) (hl : ∀ c ∈ l, c = p ∨ c ∈ L (.bin i)) :
    FreeLists mapped mem' base fast N (Function.update L (.bin i) l) := by
  refine h.relink hi hmem (fun w hw => ?_) (fun _ _ => rfl) hloop (fun c hc => ?_)
  · rcases hw with rfl | rfl | rfl
    · exact .inr ⟨⟨n, hp⟩, hout⟩
    · exact .inl (.inl ⟨i, rfl, rfl⟩)
    · exact .inl hq
  · rcases hl c hc with rfl | hc
    · exact ⟨⟨n, hp⟩, fun sh _ => hout sh⟩
    · exact ⟨(h.listed _ c hc).2, fun sh hsh hm => hsh (h.once sh _ c hm hc)⟩

/-- The words of the nodes of a bin and of a chunk that comes to it. -/
theorem node_cons (hi : (Shelf.bin i).Valid) (hp : N p = some n)
    (ha : a = sentinel base i ∨ a ∈ p :: L (.bin i)) : Node base N a := by
  rcases ha with rfl | ha
  · exact node_sentinel hi.1 hi.2
  · rcases List.mem_cons.mp ha with rfl | ha
    · exact .inl ⟨n, hp⟩
    · exact h.node_of_mem ha

theorem push (hi1 : 1 ≤ i) (hi2 : i < nBins) (hp : N p = some n)
    (hout : ∀ sh, p ∉ L sh) :
    FreeLists mapped (pushMem mem (sentinel base i) p) base fast N
      (Function.update L (.bin i) (p :: L (.bin i))) := by
  have hloop := h.loop i hi1 hi2
  refine h.insert ⟨hi1, hi2⟩ hp hout ((hloop.fd_mem (.inl rfl)).imp_left fun e => ⟨i, rfl, e⟩) (fun a ha => ?_)
    (insertMem_loop (f := 16) (b := 24) hloop (h.sentinel_ne hp hi2) (hout _) fun x y hx hy =>
      h.fd_ne_bk (h.node_cons ⟨hi1, hi2⟩ hp hx) (h.node_cons ⟨hi1, hi2⟩ hp hy)) fun c => List.mem_cons.mp
  have h1 := ha p (.inl rfl)
  have h2 := ha _ (.inr (.inl rfl))
  have h3 := ha _ (.inr (.inr rfl))
  unfold pushMem
  rw [Function.update_of_ne h3.2, Function.update_of_ne h2.1, Function.update_of_ne h1.2, Function.update_of_ne h1.1]

theorem pushBack (hi1 : 1 ≤ i) (hi2 : i < nBins) (hp : N p = some n)
    (hout : ∀ sh, p ∉ L sh) :
    FreeLists mapped (pushBackMem mem (sentinel base i) p) base fast N
      (Function.update L (.bin i) (L (.bin i) ++ [p])) := by
  have hloop := (h.loop i hi1 hi2).reverse
  have hq := hloop.fd_mem (.inl rfl)
  -- the other way round it is the front
  have hins : pushBackMem mem (sentinel base i) p = insertMem mem (sentinel base i) p 24 16 := by
    unfold pushBackMem insertMem
    rw [Function.update_comm (show p + 16 ≠ p + 24 by omega)]
    rfl
  have hnode : ∀ x, x = sentinel base i ∨ x ∈ p :: (L (.bin i)).reverse → Node base N x := fun x hx =>
    h.node_cons ⟨hi1, hi2⟩ hp (by simpa using hx)
  have hnew := insertMem_loop (f := 24) (b := 16) hloop (h.sentinel_ne hp hi2) (by simpa using hout _) fun x y hx hy =>
    (h.fd_ne_bk (hnode y hy) (hnode x hx)).symm
  rw [← hins] at hnew
  refine h.insert ⟨hi1, hi2⟩ hp hout (q := bkOf mem (sentinel base i)) ?_ (fun a ha => ?_) ?_ (fun c hc => ?_)
  · exact hq.elim (fun e => .inl ⟨i, rfl, e⟩) fun hm => .inr (List.mem_reverse.mp hm)
  · have h1 := ha p (.inl rfl)
    have h2 := ha _ (.inr (.inl rfl))
    have h3 := ha _ (.inr (.inr rfl))
    unfold pushBackMem
    rw [Function.update_of_ne h3.1, Function.update_of_ne h2.2, Function.update_of_ne h1.2, Function.update_of_ne h1.1]
  · have hrev := hnew.reverse
    rw [List.reverse_cons, List.reverse_reverse] at hrev
    exact hrev
  · rcases List.mem_append.mp hc with hc | hc
    · exact .inr hc
    · exact .inl (List.mem_singleton.mp hc)

theorem pushMem_off (hi1 : 1 ≤ i) (hi2 : i < nBins)
    (ha : OffLinks base L a) (h1 : a ≠ p + 16) (h2 : a ≠ p + 24) :
    pushMem mem (sentinel base i) p a = mem a := by
  have h128 : nBins = 128 := rfl
  have hs := ha.2
  have hfirst : a ≠ fdOf mem (sentinel base i) + 24 := by
    rcases (h.loop i hi1 hi2).fd_mem (.inl rfl) with e | hm
    · rw [e]
      unfold sentinel
      omega
    · exact (ha.1 _ _ hm).2
  unfold pushMem
  rw [Function.update_of_ne hfirst, Function.update_of_ne (by unfold sentinel; omega), Function.update_of_ne h2,
    Function.update_of_ne h1]

theorem unlink {l₁ l₂ : List Nat} (hl : L (.bin i) = l₁ ++ p :: l₂) :
    FreeLists mapped (unlinkMem mem p) base fast N (Function.update L (.bin i) (l₁ ++ l₂)) := by
  have hp : p ∈ L (.bin i) := by simp [hl]
  obtain ⟨⟨hi1, hi2⟩, n, hn⟩ := h.listed _ p hp
  have hloop := h.loop i hi1 hi2
  have hfd := hloop.fd_mem (.inr hp)
  have hbk := hloop.bk_mem hp
  have hon : ∀ {a}, a = sentinel base i ∨ a ∈ L (.bin i) → (Shelf.bin i).On base (L (.bin i)) a := fun ha =>
    ha.imp_left fun e => ⟨i, rfl, e⟩
  have hi : (Shelf.bin i).Valid := ⟨hi1, hi2⟩
  have hnode : ∀ a, a = sentinel base i ∨ a ∈ L (.bin i) → Node base N a := fun a ha => h.node_on hi (hon ha)
  have hsub : ∀ c ∈ l₁ ++ l₂, c ∈ L (.bin i) := fun c hc => by
    rw [hl]
    exact ((List.sublist_cons_self p l₂).append_left l₁).subset hc
  refine h.relink hi (W := fun w => w = fdOf mem p ∨ w = bkOf mem p) (fun a ha => ?_) (fun w hw => .inl ?_)
    (fun _ _ => rfl) ?_ (fun c hc => ?_)
  · have h1 := ha _ (.inl rfl)
    have h2 := ha _ (.inr rfl)
    unfold unlinkMem
    rw [Function.update_of_ne h2.1, Function.update_of_ne h1.2]
  · rcases hw with rfl | rfl
    · exact hon hfd
    · exact hon hbk
  · have hloop' := hloop
    rw [hl] at hloop'
    refine hloop'.unlink.congr (fun a ha => ?_) (fun a ha => ?_)
    · have hna := hnode a (ha.imp_right (hsub a))
      change unlinkMem mem p (a + 16) = _
      unfold unlinkMem
      rw [update_word]
      by_cases e : a = bkOf mem p
      · rw [e, Function.update_self, Function.update_self]
      · rw [Function.update_of_ne e, Function.update_of_ne e, Function.update_of_ne (h.fd_ne_bk hna (hnode _ hfd))]
        rfl
    · have hna := hnode a (ha.imp_right (hsub a))
      change unlinkMem mem p (a + 24) = _
      unfold unlinkMem
      rw [Function.update_of_ne (h.fd_ne_bk (hnode _ hbk) hna).symm, update_word]
      rfl
  · exact ⟨(h.listed _ c (hsub c hc)).2, fun sh hsh hm => hsh (h.once sh _ c hm (hsub c hc))⟩

theorem unlinkMem_off (hp : p ∈ L (.bin i)) (ha : OffLinks base L a) :
    unlinkMem mem p a = mem a := by
  have h128 : nBins = 128 := rfl
  obtain ⟨⟨hi1, hi2⟩, n, hn⟩ := h.listed _ p hp
  have hloop := h.loop i hi1 hi2
  have hs := ha.2
  have h1 : a ≠ fdOf mem p + 24 := by
    rcases hloop.fd_mem (.inr hp) with e | hm
    · rw [e]
      unfold sentinel
      omega
    · exact (ha.1 _ _ hm).2
  have h2 : a ≠ bkOf mem p + 16 := by
    rcases hloop.bk_mem hp with e | hm
    · rw [e]
      unfold sentinel
      omega
    · exact (ha.1 _ _ hm).1
  unfold unlinkMem
  rw [Function.update_of_ne h2, Function.update_of_ne h1]

theorem pushFast (hi : i < nFastbins) (hp : N p = some n)
    (hout : ∀ sh, p ∉ L sh) :
    FreeLists mapped (Function.update mem (p + 16) (fast i)) base (Function.update fast i p) N
      (Function.update L (.fast i) (p :: L (.fast i))) := by
  have hsh : (Shelf.fast i).Valid := hi
  refine h.relink hsh (W := (· = p)) (fun a ha => Function.update_of_ne (ha p rfl).1 ..)
    (fun w hw => .inr (hw ▸ ⟨⟨n, hp⟩, hout⟩)) (fun j hj => Function.update_of_ne (fun e : j = i => hj (e ▸ rfl)) ..) ?_
    (fun c hc => ?_)
  · change Chain 0 (fdOf (Function.update mem (p + 16) (fast i))) (Function.update fast i p i) _
    have hfd : fdOf (Function.update mem (p + 16) (fast i)) = Function.update (fdOf mem) p (fast i) :=
      funext (update_word mem 16 p (fast i))
    rw [Function.update_self, hfd]
    exact (h.chain i hi).push (h.node_ne_zero (.inl ⟨n, hp⟩)) (hout _)
  · rcases List.mem_cons.mp hc with rfl | hc
    · exact ⟨⟨n, hp⟩, fun sh _ => hout sh⟩
    · exact ⟨(h.listed _ c hc).2, fun sh hsh hm => hsh (h.once sh _ c hm hc)⟩

theorem clearFast (hi : i < nFastbins) :
    FreeLists mapped mem base (Function.update fast i 0) N (Function.update L (.fast i) []) :=
  h.relink (show (Shelf.fast i).Valid from hi) (W := fun _ => False) (fun _ _ => rfl) nofun
    (fun j hj => Function.update_of_ne (fun e : j = i => hj (e ▸ rfl)) ..) (Function.update_self i 0 fast) nofun

theorem takeFast {l₁ l₂ : List Nat} (hl : L (.fast i) = l₁ ++ p :: l₂) :
    (l₁ = [] → FreeLists mapped mem base (Function.update fast i (fdOf mem p)) N
        (Function.update L (.fast i) (l₁ ++ l₂))) ∧
      ∀ b ∈ l₁.getLast?, FreeLists mapped (Function.update mem (b + 16) (fdOf mem p)) base fast N
        (Function.update L (.fast i) (l₁ ++ l₂)) := by
  obtain ⟨hi, -⟩ := h.listed (.fast i) p (by simp [hl])
  have hsh : (Shelf.fast i).Valid := hi
  have hchain := h.chain i hi
  rw [hl] at hchain
  have htail := hchain.tail_of_append
  have hmem : ∀ c ∈ l₁ ++ l₂, (∃ n, N c = some n) ∧ ∀ sh, sh ≠ .fast i → c ∉ L sh := fun c hc => by
    have hc : c ∈ L (.fast i) := hl ▸ ((List.sublist_cons_self p l₂).append_left l₁).subset hc
    exact ⟨(h.listed _ c hc).2, fun sh hsh hm => hsh (h.once sh _ c hm hc)⟩
  constructor
  · rintro rfl
    refine h.relink hsh (W := fun _ => False) (fun _ _ => rfl) nofun
      (fun j hj => Function.update_of_ne (fun e : j = i => hj (e ▸ rfl)) ..) ?_ hmem
    change Chain 0 (fdOf mem) (Function.update fast i (fdOf mem p) i) _
    rw [Function.update_self]
    exact htail
  · intro b hb
    obtain ⟨l, rfl⟩ := List.getLast?_eq_some_iff.mp hb
    have hfd : fdOf (Function.update mem (b + 16) (fdOf mem p)) = Function.update (fdOf mem) b (fdOf mem p) :=
      funext (update_word mem 16 b (fdOf mem p))
    refine h.relink hsh (W := (· = b)) (fun a ha => Function.update_of_ne (ha b rfl).1 ..)
      (fun w hw => .inl (.inr (by rw [hl, hw]; simp))) (fun _ _ => rfl) ?_ hmem
    change Chain 0 (fdOf (Function.update mem (b + 16) (fdOf mem p))) (fast i) _
    rw [List.append_assoc, List.singleton_append] at hchain ⊢
    have hb := hchain.apart
    rw [hfd]
    refine hchain.relink (fun c hc => Function.update_of_ne (fun e : c = b => hb.1 (e ▸ hc)) ..) ?_
    rw [Function.update_self]
    exact htail.update fun hm => hb.2.1 (List.mem_cons_of_mem _ hm)

end FreeLists

/-- The lists without the chunk at `p`. -/
def remove (L : Shelf → List Nat) (p : Nat) : Shelf → List Nat := fun sh => (L sh).erase p

theorem FreeLists.remove_eq {mapped : Nat → Bool} {mem fast : Nat → Nat} {base p : Nat} {N : Nat → Option Nat}
    {L : Shelf → List Nat} {sh : Shelf} {l₁ l₂ : List Nat} (h : FreeLists mapped mem base fast N L)
    (hl : L sh = l₁ ++ p :: l₂) : remove L p = Function.update L sh (l₁ ++ l₂) := by
  have hp : p ∈ L sh := by simp [hl]
  funext sh'
  rcases eq_or_ne sh' sh with rfl | hne
  · have hnd := (h.holds (h.listed sh' p hp).1).nodup
    rw [hl] at hnd
    have hp₁ : p ∉ l₁ := fun hm => (List.nodup_append.mp hnd).2.2 p hm p List.mem_cons_self rfl
    rw [Function.update_self, remove, hl, List.erase_append_right _ hp₁, List.erase_cons_head]
  · rw [Function.update_of_ne hne, remove, List.erase_of_not_mem fun hm => hne (h.once sh' sh p hm hp)]

/-! ## The operations of the source -/

section run
variable {s : State τ} {k : Nat} {N : Nat → Option Nat} {L : Shelf → List Nat} {i p n : Nat}

variable (h : s.Lists k N L)
include h

/-- `BinList::push_front`. -/
theorem State.Lists.pushFront_run (hi1 : 1 ≤ i) (hi2 : i < nBins) (hp : N p = some n) :
    pushFront (sentinel (s.arena k).base i) p s =
      some ((), { s with mem := pushMem s.mem (sentinel (s.arena k).base i) p }) := by
  have hsnt : Node (s.arena k).base N (sentinel (s.arena k).base i) := FreeLists.node_sentinel hi1 hi2
  have hnp : Node (s.arena k).base N p := .inl ⟨n, hp⟩
  have hnf : Node (s.arena k).base N (fdOf s.mem (sentinel (s.arena k).base i)) := by
    rcases (h.loop i hi1 hi2).fd_mem (.inl rfl) with e | hm
    · rw [e]
      exact hsnt
    · exact h.node_of_mem hm
  have h0 : s.mem (sentinel (s.arena k).base i + 16) ≠ 0 := h.node_ne_zero hnf
  unfold pushFront
  rw [bind_run (load_run (h.node_mapped hsnt).1), bind_run (store_run (h.node_mapped hnp).1),
    bind_run (store_run (by exact (h.node_mapped hnp).2)), bind_run (store_run (by exact (h.node_mapped hsnt).1)),
    if_pos h0]
  exact store_run (by exact (h.node_mapped hnf).2)

/-- `BinList::unlink` of a chunk that is in a bin. -/
theorem State.Lists.unlink_run (hp : p ∈ L (.bin i)) :
    unlink p s = some ((), { s with mem := unlinkMem s.mem p }) := by
  obtain ⟨⟨hi1, hi2⟩, n, hn⟩ := h.listed _ p hp
  have hloop := h.loop i hi1 hi2
  have hnode : ∀ a, a = sentinel (s.arena k).base i ∨ a ∈ L (.bin i) → Node (s.arena k).base N a := by
    rintro a (rfl | ha)
    · exact FreeLists.node_sentinel hi1 hi2
    · exact h.node_of_mem ha
  have hnp := hnode p (.inr hp)
  have hnf := hnode _ (hloop.fd_mem (.inr hp))
  have hnb := hnode _ (hloop.bk_mem hp)
  -- the neighbours point back
  obtain ⟨l₁, l₂, hl⟩ := List.append_of_mem hp
  have hround := hloop
  rw [hl] at hround
  obtain ⟨u, v, -, -, hforth, hback, -⟩ := hround.around
  have hback : s.mem (s.mem (p + 16) + 24) = p := hback
  have hforth : s.mem (s.mem (p + 24) + 16) = p := hforth
  have hf0 : s.mem (p + 16) ≠ 0 := h.node_ne_zero hnf
  have hb0 : s.mem (p + 24) ≠ 0 := h.node_ne_zero hnb
  unfold unlink
  rw [bind_run (load_run (h.node_mapped hnp).1), bind_run (load_run (h.node_mapped hnp).2), if_neg hf0,
    bind_run (load_run (by exact (h.node_mapped hnf).2)),
    if_neg (by rw [hback]; exact fun e => e.elim (fun e => e rfl) hb0),
    bind_run (load_run (by exact (h.node_mapped hnb).1)), if_pos hforth,
    bind_run (store_run (by exact (h.node_mapped hnf).2))]
  exact store_run (by exact (h.node_mapped hnb).1)

theorem State.Lists.binEmpty_run (hi1 : 1 ≤ i) (hi2 : i < nBins) :
    binEmpty (sentinel (s.arena k).base i) s = some (decide (L (.bin i) = []), s) := by
  have hmapped := (h.node_mapped (FreeLists.node_sentinel (N := N) hi1 hi2)).1
  unfold binEmpty
  rw [bind_run (load_run hmapped)]
  have hiff := (h.loop i hi1 hi2).chain.eq_nil_iff
  exact congrArg (fun b => some (b, s)) (decide_eq_decide.mpr hiff.symm)

theorem State.Lists.unlink_bin {l m : List Nat} (hl : L (.bin i) = l ++ p :: m) :
    State.Lists { s with mem := unlinkMem s.mem p } k N (Function.update L (.bin i) (l ++ m)) ∧
      ∀ sh, p ∉ Function.update L (.bin i) (l ++ m) sh := by
  have hp : p ∈ L (.bin i) := by simp [hl]
  obtain ⟨⟨hi1, hi2⟩, -⟩ := h.listed _ p hp
  refine ⟨FreeLists.unlink h hl, fun sh hm => ?_⟩
  rcases mem_update hm with ⟨-, hm⟩ | ⟨hne, hm⟩
  · have hnd := (h.loop i hi1 hi2).nodup
    rw [hl, List.nodup_middle] at hnd
    exact (List.nodup_cons.mp hnd).1 hm
  · exact hne (h.once sh _ p hm hp)

omit h in
/-- Distinct mapped words: there are fewer of them than the limit of a walk. -/
theorem State.length_lt_walkLimit (s : State τ) {l : List Nat} (hnd : l.Nodup)
    (hl : ∀ c ∈ l, s.mapped c = true ∧ 8 ∣ c) : l.length < s.walkLimit := by
  have hle := Region.words_le_sum (R := s.regions) hnd fun c hc => by
    obtain ⟨hm, hd⟩ := hl c hc
    obtain ⟨r, hr, hb⟩ := List.any_eq_true.mp hm
    exact ⟨hd, r, hr, of_decide_eq_true hb⟩
  unfold State.walkLimit
  omega

omit h in
/-- The search along a list that ends at `stop`: what is found is the chunk before. -/
theorem seek_run (prev : Nat) {stop fuel cur : Nat} {l : List Nat} (hc : Chain stop (fdOf s.mem) cur l)
    (hl : ∀ c ∈ l, c ≠ 0 ∧ s.mapped (c + 16) = true) (hf : l.length < fuel) :
    (p ∉ l → seek stop p fuel prev cur s = some (none, s)) ∧
      ∀ l₁ l₂, l = l₁ ++ p :: l₂ → p ∉ l₁ → seek stop p fuel prev cur s = some (some (l₁.getLast?.getD prev), s) := by
  induction l generalizing fuel prev cur with
  | nil =>
    obtain rfl : cur = stop := hc
    obtain ⟨fuel, rfl⟩ : ∃ m, fuel = m + 1 := ⟨fuel - 1, by simp at hf; omega⟩
    refine ⟨fun _ => ?_, fun l₁ l₂ e => absurd e (by simp)⟩
    rw [seek, if_pos (.inr rfl)]
    rfl
  | cons a l ih =>
    obtain ⟨rfl, hne, htl⟩ := hc
    obtain ⟨fuel, rfl⟩ : ∃ m, fuel = m + 1 := ⟨fuel - 1, by simp at hf; omega⟩
    have h0 := hl cur List.mem_cons_self
    rw [seek, if_neg (fun e => e.elim h0.1 hne)]
    by_cases e : cur = p
    · subst e
      rw [if_pos rfl]
      refine ⟨fun hp => absurd List.mem_cons_self hp, fun l₁ l₂ e hp => ?_⟩
      cases l₁ with
      | nil => rfl
      | cons b l₁ => exact absurd ((List.cons.inj e).1 ▸ List.mem_cons_self) hp
    · rw [if_neg e, bind_run (load_run h0.2)]
      obtain ⟨h1, h2⟩ := ih cur htl (fun c hc => hl c (List.mem_cons_of_mem _ hc))
        (by simpa using hf : l.length < fuel)
      refine ⟨fun hp => h1 fun hm => hp (List.mem_cons_of_mem _ hm), fun l₁ l₂ el hp => ?_⟩
      cases l₁ with
      | nil => exact absurd (List.cons.inj el).1 e
      | cons b l₁ =>
        obtain ⟨rfl, erest⟩ := List.cons.inj el
        rw [List.getLast?_cons, Option.getD_some]
        exact h2 l₁ l₂ erest fun hm => hp (List.mem_cons_of_mem _ hm)

/-- A list has fewer chunks than the limit of a walk, and its links are mapped. -/
theorem State.Lists.walk {sh : Shelf} (hnd : (L sh).Nodup) :
    (∀ c ∈ L sh, c ≠ 0 ∧ s.mapped (c + 16) = true) ∧ (L sh).length < s.walkLimit := by
  constructor
  · intro c hc
    exact ⟨h.node_ne_zero (h.node_of_mem hc), (h.node_mapped (h.node_of_mem hc)).1⟩
  · refine s.length_lt_walkLimit hnd fun c hc => ?_
    obtain ⟨-, n, hn⟩ := h.listed sh c hc
    have hch := h.chunk c n hn
    exact ⟨h.words c n hn c (Nat.le_refl c) (by omega), by omega⟩

theorem State.Lists.seekFast_run (hi : i < nFastbins) (hp : p ∉ L (.fast i)) :
    seekFast k p i s = some (none, s) := by
  obtain ⟨hl, hlen⟩ := h.walk (h.chain i hi).nodup
  have hseek := (seek_run 0 (h.chain i hi) hl hlen).1 hp
  have hav : getArenaRec k s = some (s.arena k, s) := rfl
  unfold seekFast
  rw [gets_bind, bind_run hav, bind_run hseek]
  rfl

theorem State.Lists.seekFast_mem (hi : i < nFastbins) {l₁ l₂ : List Nat}
    (hl : L (.fast i) = l₁ ++ p :: l₂) : seekFast k p i s = some (some (.fast i (l₁.getLast?.getD 0)), s) := by
  have hchain := h.chain i hi
  obtain ⟨hmem, hlen⟩ := h.walk hchain.nodup
  have hseek := (seek_run 0 hchain hmem hlen).2 l₁ l₂ hl (hl ▸ hchain).apart.1
  have hav : getArenaRec k s = some (s.arena k, s) := rfl
  unfold seekFast
  rw [gets_bind, bind_run hav, bind_run hseek]
  rfl

theorem State.Lists.seekBin_run (hi1 : 1 ≤ i) (hi2 : i < nBins) :
    seekBin k p i s = some (if p ∈ L (.bin i) then some (.bin i) else none, s) := by
  have hloop := h.loop i hi1 hi2
  obtain ⟨hl, hlen⟩ := h.walk hloop.nodup
  have hseek := seek_run (p := p) 0 hloop.chain hl hlen
  have hsnt : Node (s.arena k).base N (sentinel (s.arena k).base i) := FreeLists.node_sentinel hi1 hi2
  have hav : getArenaRec k s = some (s.arena k, s) := rfl
  have hfirst : load (sentinel (s.arena k).base i + 16) s =
      some (fdOf s.mem (sentinel (s.arena k).base i), s) := load_run (h.node_mapped hsnt).1
  unfold seekBin
  rw [gets_bind, bind_run hav, bind_run hfirst]
  by_cases hp : p ∈ L (.bin i)
  · obtain ⟨l₁, l₂, e, hp₁⟩ := List.eq_append_cons_of_mem hp
    rw [bind_run (hseek.2 l₁ l₂ e hp₁), if_pos hp]
    rfl
  · rw [bind_run (hseek.1 hp), if_neg hp]
    rfl

theorem State.Lists.findFree_bin (hp : p ∈ L (.bin i)) :
    findFree k p s = some (some (.bin i), s) := by
  have h128 : nBins = 128 := rfl
  obtain ⟨⟨hi1, hi2⟩, -⟩ := h.listed _ p hp
  have hfast : firstFound (seekFast k p) (List.range nFastbins) s = some (none, s) :=
    firstFound_none fun j hj => h.seekFast_run (List.mem_range.mp hj) fun hm => nomatch h.once _ _ p hm hp
  unfold findFree
  rw [bind_run hfast]
  refine firstFound_some (a := i) (List.mem_map.mpr ⟨i - 1, List.mem_range.mpr (by omega), by omega⟩) ?_ ?_
  · rw [h.seekBin_run hi1 hi2, if_pos hp]
  · intro j hj hne
    obtain ⟨m, hm, rfl⟩ := List.mem_map.mp hj
    have hm := List.mem_range.mp hm
    rw [h.seekBin_run (by omega) (by omega), if_neg]
    exact fun hmem => hne (Shelf.bin.inj (h.once _ _ p hmem hp))

theorem State.Lists.findFree_fast {l₁ l₂ : List Nat} (hl : L (.fast i) = l₁ ++ p :: l₂) :
    findFree k p s = some (some (.fast i (l₁.getLast?.getD 0)), s) := by
  have hp : p ∈ L (.fast i) := by simp [hl]
  obtain ⟨hi, -⟩ := h.listed _ p hp
  have hfast : firstFound (seekFast k p) (List.range nFastbins) s = some (some (.fast i (l₁.getLast?.getD 0)), s) :=
    firstFound_some (List.mem_range.mpr hi) (h.seekFast_mem hi hl) fun j hj hne =>
      h.seekFast_run (List.mem_range.mp hj) fun hm => hne (Shelf.fast.inj (h.once _ _ p hm hp))
  unfold findFree
  rw [bind_run hfast]
  rfl

theorem State.Lists.findFree_none (hp : ∀ sh, p ∉ L sh) :
    findFree k p s = some (none, s) := by
  have h128 : nBins = 128 := rfl
  have hfast : firstFound (seekFast k p) (List.range nFastbins) s = some (none, s) :=
    firstFound_none fun j hj => h.seekFast_run (List.mem_range.mp hj) (hp _)
  unfold findFree
  rw [bind_run hfast]
  refine firstFound_none fun j hj => ?_
  obtain ⟨m, hm, rfl⟩ := List.mem_map.mp hj
  have hm := List.mem_range.mp hm
  rw [h.seekBin_run (by omega) (by omega), if_neg (hp _)]

theorem State.Lists.unlinkFreeChunk_run (hp : p ∈ L (.bin i)) :
    unlinkFreeChunk k p s = some (true, { s with mem := unlinkMem s.mem p }) := by
  unfold unlinkFreeChunk
  rw [bind_run (h.findFree_bin hp)]
  change (Words.unlink p >>= fun _ => pure true) s = _
  rw [bind_run (h.unlink_run hp)]
  rfl

theorem State.Lists.containsFreeChunk_bin (hp : p ∈ L (.bin i)) :
    containsFreeChunk k p s = some (true, s) := by
  unfold containsFreeChunk
  rw [if_neg (h.node_ne_zero (h.node_of_mem hp)), bind_run (h.findFree_bin hp)]
  rfl

theorem State.Lists.containsFreeChunk_none (hp : ∀ sh, p ∉ L sh) :
    containsFreeChunk k p s = some (false, s) := by
  unfold containsFreeChunk
  split
  · rfl
  · rw [bind_run (h.findFree_none hp)]
    rfl

end run

end MyMalloc.Ptmalloc.Words
