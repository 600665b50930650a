import MyMalloc.Classic.Mimalloc.Runs
import MyMalloc.Lib.Links

/- The free lists of a page as they lie in memory (`types.h`, `mimalloc.cpp`).

   A free block's first word is the address of the next free block, exclusive-or'ed
   with the cookie of the page. `Linked` says that such a page represents a page of
   the model with lists, `Mimalloc.Page`: following the decoded links from the two
   list heads visits the blocks of the two lists.

   Pushing, popping and setting up a page work on encoded links throughout.
   `drain_remote` does not: it follows the encoded words of the remote queue as if
   they were addresses. The cookie is odd and blocks are aligned, so the first of
   them already is an address at which no block can be read; a drain that finds
   anything in the queue has no result (`drainRemote_none`). -/
namespace MyMalloc.Mimalloc

/-- `mi_page_t`. -/
structure LPage where
  blockSize : Nat
  capacity : Nat
  used : Nat
  localFree : Nat
  localCount : Nat
  xthreadFree : Nat
  heapTag : Nat
  cookie : Nat

/-- The first words of the blocks, by address. -/
abbrev Words := Nat → Nat

/-- `(page >> 4) | 1`, for the page that follows the header of the segment. -/
def cookieOf (seg : Nat) : Nat := (seg + 32) >>> 4 ||| 1

/-- The decoded link of a block. -/
def LPage.next (pg : LPage) (word : Words) (b : Nat) : Nat := word b ^^^ pg.cookie

/-- Put a block in front of `local_free`. -/
def pushLocal (b : Nat) (p : LPage × Words) : LPage × Words :=
  ({ p.1 with localFree := b, localCount := (p.1.localCount + 1) % 2^32 },
    Function.update p.2 b (p.1.localFree ^^^ p.1.cookie))

/-- The successful compare-exchange of a remote free. -/
def pushRemote (b : Nat) (p : LPage × Words) : LPage × Words :=
  ({ p.1 with xthreadFree := b }, Function.update p.2 b (p.1.xthreadFree ^^^ p.1.cookie))

/-- Take the first block of `local_free`, which is not empty. -/
def popLocal (p : LPage × Words) : Nat × LPage × Words :=
  let b := p.1.localFree
  (b, { p.1 with
      localFree := p.2 b ^^^ p.1.cookie
      localCount := (p.1.localCount + 2^32 - 1) % 2^32 },
    Function.update p.2 b 0)

/-- The page `mi_page_alloc` sets up, block by block. -/
def initPage (seg blockSize heapTag : Nat) (word : Words) : LPage × Words :=
  let capacity := min ((segmentSize - blockOffset) / blockSize) 65535
  ((List.range capacity).map (fun i => seg + blockOffset + i * blockSize)).foldl
    (fun p b => pushLocal b p) (⟨blockSize, capacity, 0, 0, 0, 0, heapTag, cookieOf seg⟩, word)

/-! ## Draining the remote queue -/

/-- A block of the segment can be read at `a`. -/
def Readable (seg a : Nat) : Prop := 8 ∣ a ∧ seg ≤ a ∧ a + 8 ≤ seg + segmentSize

instance (seg a : Nat) : Decidable (Readable seg a) := inferInstanceAs (Decidable (_ ∧ _ ∧ _))

/-- The loop of `drain_remote` that reverses the queue: the blocks reversed so far, how many
they are, and the words. -/
def reverseLoop (seg : Nat) : Nat → Nat → Nat × Nat × Words → Option (Nat × Nat × Words)
  | 0, _, _ => none
  | fuel + 1, list, (reversed, count, word) =>
    if list = 0 then some (reversed, count, word)
    else if Readable seg list then
      reverseLoop seg fuel (word list) (list, count + 1, Function.update word list reversed)
    else none

/-- The loop that looks for the last reversed block. -/
def tailLoop (seg : Nat) (word : Words) : Nat → Nat → Option Nat
  | 0, _ => none
  | fuel + 1, tail =>
    if Readable seg tail then
      if word tail = 0 then some tail else tailLoop seg word fuel (word tail)
    else none

/-- `mi_page_t::drain_remote`; no result if a loop does not end or leaves the segment's blocks. -/
def drainRemote (seg fuel : Nat) (p : LPage × Words) : Option (LPage × Words) :=
  let list := p.1.xthreadFree
  let pg := { p.1 with xthreadFree := 0 }
  if list = 0 then some (pg, p.2)
  else do
    let (reversed, count, word) ← reverseLoop seg fuel list (0, 0, p.2)
    let tail ← tailLoop seg word fuel reversed
    pure ({ pg with localFree := reversed, localCount := (pg.localCount + count) % 2^32 },
      Function.update word tail pg.localFree)

/-! ## Pages represented by encoded links -/

/-- The page in memory represents the page with lists. -/
structure Linked (seg : Nat) (word : Words) (lp : LPage) (pg : Page) : Prop where
  blockSize : lp.blockSize = pg.blockSize
  capacity : lp.capacity = pg.capacity
  used : lp.used = pg.used
  heapTag : lp.heapTag = pg.heapTag
  cookie : lp.cookie = cookieOf seg
  free : Chain 0 (lp.next word) lp.localFree pg.localFree
  count : lp.localCount = pg.localFree.length
  queue : Chain 0 (lp.next word) lp.xthreadFree pg.xthreadFree

theorem xor_cookie (a c : Nat) : a ^^^ c ^^^ c = a := Nat.xor_xor_cancel_right a c

namespace Linked
variable {seg : Nat} {word word' : Words} {lp : LPage} {pg : Page}

variable (h : Linked seg word lp pg)
include h

theorem frame (hfree : ∀ b ∈ pg.localFree, word' b = word b)
    (hqueue : ∀ b ∈ pg.xthreadFree, word' b = word b) : Linked seg word' lp pg :=
  { h with
    free := h.free.congr (fun b hb => by simp [LPage.next, hfree b hb])
    queue := h.queue.congr (fun b hb => by simp [LPage.next, hqueue b hb]) }

theorem push {b : Nat} (h0 : b ≠ 0) (hb : b ∉ pg.localFree)
    (hq : b ∉ pg.xthreadFree) (hlen : pg.localFree.length + 1 < 2^32) :
    Linked seg (pushLocal b (lp, word)).2 (pushLocal b (lp, word)).1
      { pg with localFree := b :: pg.localFree } := by
  have hout : ∀ a, a ≠ b → Function.update word b (lp.localFree ^^^ lp.cookie) a = word a :=
    fun a ha => Function.update_of_ne ha _ _
  have hk := h.frame (fun a ha => hout a (ne_of_mem_of_not_mem ha hb))
    (fun a ha => hout a (ne_of_mem_of_not_mem ha hq))
  refine ⟨h.blockSize, h.capacity, h.used, h.heapTag, h.cookie, ⟨rfl, h0, ?_⟩, ?_, hk.queue⟩
  · show Chain 0 _ (Function.update word b (lp.localFree ^^^ lp.cookie) b ^^^ lp.cookie) _
    rw [Function.update_self, xor_cookie]
    exact hk.free
  · show (lp.localCount + 1) % 2^32 = _
    rw [h.count, Nat.mod_eq_of_lt hlen, List.length_cons]

theorem pop {b : Nat} {l : List Nat} (hl : pg.localFree = b :: l)
    (hq : b ∉ pg.xthreadFree) (hlen : pg.localFree.length < 2^32) :
    (popLocal (lp, word)).1 = b ∧
      Linked seg (popLocal (lp, word)).2.2 (popLocal (lp, word)).2.1 { pg with localFree := l } := by
  have hfree := h.free
  rw [hl] at hfree
  obtain ⟨hb, h0, htail⟩ := hfree
  have hnd : b ∉ l := by
    have := h.free.nodup
    rw [hl] at this
    exact (List.nodup_cons.mp this).1
  have hlb : lp.localFree = b := hb
  have hcount : (lp.localCount + 2^32 - 1) % 2^32 = l.length := by
    rw [h.count, hl, List.length_cons]
    rw [hl, List.length_cons] at hlen
    omega
  refine ⟨hlb, h.blockSize, h.capacity, h.used, h.heapTag, h.cookie, ?_, hcount, ?_⟩
  · show Chain 0 (fun a => Function.update word lp.localFree 0 a ^^^ lp.cookie)
      (word lp.localFree ^^^ lp.cookie) l
    rw [hlb]
    refine htail.congr (fun a ha => ?_)
    show Function.update word b 0 a ^^^ lp.cookie = word a ^^^ lp.cookie
    rw [Function.update_of_ne (ne_of_mem_of_not_mem ha hnd)]
  · refine h.queue.congr (fun a ha => ?_)
    show Function.update word lp.localFree 0 a ^^^ lp.cookie = word a ^^^ lp.cookie
    rw [hlb, Function.update_of_ne (ne_of_mem_of_not_mem ha hq)]

theorem pushRemote {b : Nat} (h0 : b ≠ 0) (hb : b ∉ pg.localFree)
    (hq : b ∉ pg.xthreadFree) :
    Linked seg (pushRemote b (lp, word)).2 (pushRemote b (lp, word)).1
      { pg with xthreadFree := b :: pg.xthreadFree } := by
  have hout : ∀ a, a ≠ b → Function.update word b (lp.xthreadFree ^^^ lp.cookie) a = word a :=
    fun a ha => Function.update_of_ne ha _ _
  have hk := h.frame (fun a ha => hout a (ne_of_mem_of_not_mem ha hb))
    (fun a ha => hout a (ne_of_mem_of_not_mem ha hq))
  refine ⟨h.blockSize, h.capacity, h.used, h.heapTag, h.cookie, hk.free, h.count, ⟨rfl, h0, ?_⟩⟩
  show Chain 0 _ (Function.update word b (lp.xthreadFree ^^^ lp.cookie) b ^^^ lp.cookie) _
  rw [Function.update_self, xor_cookie]
  exact hk.queue

theorem setUsed (u : Nat) :
    Linked seg word { lp with used := u } { pg with used := u } :=
  ⟨h.blockSize, h.capacity, rfl, h.heapTag, h.cookie, h.free, h.count, h.queue⟩

theorem pushAll {l : List Nat} (h0 : ∀ b ∈ l, b ≠ 0)
    (hnd : l.Nodup) (hb : ∀ b ∈ l, b ∉ pg.localFree) (hq : ∀ b ∈ l, b ∉ pg.xthreadFree)
    (hlen : pg.localFree.length + l.length < 2^32) :
    let p := l.foldl (fun p b => pushLocal b p) (lp, word)
    Linked seg p.2 p.1 { pg with localFree := l.reverse ++ pg.localFree } := by
  induction l generalizing lp word pg with
  | nil => exact h
  | cons b l ih =>
    obtain ⟨hbb, hnd⟩ := List.nodup_cons.mp hnd
    rw [List.length_cons] at hlen
    have hpush := h.push (h0 b (List.mem_cons_self ..)) (hb b (List.mem_cons_self ..))
      (hq b (List.mem_cons_self ..)) (by omega)
    have := ih hpush (fun a ha => h0 a (List.mem_cons_of_mem _ ha)) hnd
      (fun a ha hmem => ?_) (fun a ha => hq a (List.mem_cons_of_mem _ ha))
      (by rw [List.length_cons]; omega)
    · simpa using this
    · rcases List.mem_cons.mp hmem with rfl | hmem
      · exact hbb ha
      · exact hb a (List.mem_cons_of_mem _ ha) hmem

end Linked

theorem pushAll_word {a : Nat} {l : List Nat} (ha : a ∉ l) (p : LPage × Words) :
    (l.foldl (fun p b => pushLocal b p) p).2 a = p.2 a := by
  induction l generalizing p with
  | nil => rfl
  | cons b l ih =>
    obtain ⟨hb, hbs⟩ := not_or.mp (fun h => ha (List.mem_cons.mpr h))
    rw [List.foldl_cons, ih hbs]
    exact Function.update_of_ne hb _ _

theorem initPage_linked (seg tag : Nat) {size : Nat} (hpos : 0 < size) (word : Words) :
    Linked seg (initPage seg size tag word).2 (initPage seg size tag word).1
      (freshPage seg size tag) := by
  have hinj : Function.Injective (fun i => seg + blockOffset + i * size) := fun i j e =>
    Nat.eq_of_mul_eq_mul_right hpos (Nat.add_left_cancel e)
  have hnone : Linked seg word
      ⟨size, min ((segmentSize - blockOffset) / size) 65535, 0, 0, 0, 0, tag, cookieOf seg⟩
      { freshPage seg size tag with localFree := [] } :=
    ⟨rfl, rfl, rfl, rfl, rfl, rfl, rfl, rfl⟩
  have h := hnone.pushAll
    (l := (List.range (min ((segmentSize - blockOffset) / size) 65535)).map
      (fun i => seg + blockOffset + i * size))
    (fun b hb => ?_) (List.nodup_range.map hinj) (fun _ _ => List.not_mem_nil)
    (fun _ _ => List.not_mem_nil) ?_
  · simp only [freshPage, List.append_nil] at h
    simpa only [initPage, freshPage, List.map_reverse] using h
  · obtain ⟨i, -, rfl⟩ := List.mem_map.mp hb
    have : blockOffset = 128 := rfl
    omega
  · simp only [List.length_nil, List.length_map, List.length_range]
    omega

theorem initPage_word {seg size tag a : Nat} (ha : a < seg + blockOffset ∨ seg + segmentSize ≤ a)
    (hpos : 0 < size) (word : Words) : (initPage seg size tag word).2 a = word a := by
  refine pushAll_word (fun hmem => ?_) _
  obtain ⟨i, hi, rfl⟩ := List.mem_map.mp hmem
  have hi := List.mem_range.mp hi
  have hle : (i + 1) * size ≤ segmentSize - blockOffset :=
    Nat.le_trans (Nat.mul_le_mul_right _ (by omega : i + 1 ≤ (segmentSize - blockOffset) / size))
      (Nat.div_mul_le_self ..)
  rw [Nat.add_mul, Nat.one_mul] at hle
  have : segmentSize = 65536 := rfl
  have : blockOffset = 128 := rfl
  omega

/-! ## What a drain finds -/

theorem cookieOf_odd (seg : Nat) : cookieOf seg % 2 = 1 := by
  rw [cookieOf, Nat.or_mod_two_eq_one]
  exact .inr rfl

theorem drainRemote_empty (seg fuel : Nat) {p : LPage × Words} (h : p.1.xthreadFree = 0) :
    drainRemote seg fuel p = some p := by
  obtain ⟨⟨_, _, _, _, _, queue, _, _⟩, word⟩ := p
  obtain rfl : queue = 0 := h
  rfl

/-- A drain takes the word of the first block in the queue for an address; an odd one is none. -/
theorem drainRemote_odd {p : LPage × Words} (seg fuel : Nat) (hne : p.1.xthreadFree ≠ 0)
    (hodd : p.2 p.1.xthreadFree % 2 = 1) : drainRemote seg fuel p = none := by
  obtain ⟨lp, word⟩ := p
  dsimp only at hne hodd
  have hloop : reverseLoop seg fuel lp.xthreadFree (0, 0, word) = none := by
    cases fuel with
    | zero => rfl
    | succ fuel =>
      simp only [reverseLoop, if_neg hne]
      split
      · cases fuel with
        | zero => rfl
        | succ fuel =>
          have hread : ¬ Readable seg (word lp.xthreadFree) := fun hr => by
            have := hr.1
            omega
          simp only [reverseLoop, if_neg (show word lp.xthreadFree ≠ 0 by omega), if_neg hread]
      · rfl
  simp only [drainRemote, if_neg hne, hloop]
  rfl

/-- The words of the queue's blocks are encoded with an odd cookie, so a drain that finds one has
    no result. -/
theorem drainRemote_none {seg : Nat} {word : Words} {lp : LPage} {pg : Page}
    (h : Linked seg word lp pg) (heven : ∀ b ∈ pg.xthreadFree, 2 ∣ b)
    (hne : lp.xthreadFree ≠ 0) (fuel : Nat) : drainRemote seg fuel (lp, word) = none := by
  obtain ⟨l, hl, htail⟩ := h.queue.exists_cons hne
  -- the decoded link is null or a block
  have hnext : 2 ∣ lp.next word lp.xthreadFree := by
    cases l with
    | nil => exact (show lp.next word lp.xthreadFree = 0 from htail) ▸ Nat.dvd_zero 2
    | cons b l =>
      rw [show lp.next word lp.xthreadFree = b from htail.1]
      exact heven b (by simp [hl])
  refine drainRemote_odd seg fuel hne ?_
  have hx : (word lp.xthreadFree ^^^ lp.cookie) % 2 = 0 := Nat.mod_eq_zero_of_dvd hnext
  rw [h.cookie, Nat.xor_mod_two_eq] at hx
  have := cookieOf_odd seg
  dsimp only
  omega

end MyMalloc.Mimalloc
