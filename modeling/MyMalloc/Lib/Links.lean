import Mathlib.Logic.Function.Basic
import Mathlib.Data.List.Nodup
import Mathlib.Data.List.Basic

/- Many linked lists threaded through one link field.

   `Chain null next h l` says that following `next` from the head pointer `h`
   visits exactly the nodes of `l` and then reaches `null`. `Shelved` is the
   invariant of a family of such lists that share the link field: list `i` is
   reached from `head i`, and every node knows the one list it is in
   (`place`). A node that is in no list may be linked into any of them; the
   lists it is not in are not disturbed. `Back` is the second link of a doubly
   linked list.

   Each operation a program does on such lists (push and pop at the front,
   unlink from the middle, move a whole list, put one list in front of
   another) has one lemma here, in the form of the pointer writes it makes. -/
namespace MyMalloc

variable {α ι : Type} {null : α} {next prev : α → α}

/-- From `h`, following `next` visits exactly `l` and ends at `null`. -/
def Chain (null : α) (next : α → α) : α → List α → Prop
  | h, [] => h = null
  | h, a :: l => h = a ∧ a ≠ null ∧ Chain null next (next a) l

theorem Chain.ne_null {h : α} {l : List α} (hc : Chain null next h l) : ∀ a ∈ l, a ≠ null := by
  induction l generalizing h with
  | nil => simp
  | cons b l ih =>
    obtain ⟨_, hb, hl⟩ := hc
    intro a ha
    rcases List.mem_cons.mp ha with rfl | ha
    · exact hb
    · exact ih hl a ha

theorem Chain.eq_nil_iff {h : α} {l : List α} (hc : Chain null next h l) : l = [] ↔ h = null := by
  cases l with
  | nil => simpa [Chain] using hc
  | cons a l =>
    obtain ⟨rfl, ha, _⟩ := hc
    simp [ha]

theorem Chain.exists_cons {h : α} {l : List α} (hc : Chain null next h l) (hh : h ≠ null) :
    ∃ l', l = h :: l' ∧ Chain null next (next h) l' := by
  cases l with
  | nil => exact absurd hc hh
  | cons a l' =>
    obtain ⟨rfl, _, hl⟩ := hc
    exact ⟨l', rfl, hl⟩

theorem Chain.unique {h : α} {l l' : List α} (hc : Chain null next h l)
    (hc' : Chain null next h l') : l = l' := by
  induction l generalizing h l' with
  | nil => exact ((hc'.eq_nil_iff).mpr hc).symm
  | cons a l ih =>
    obtain ⟨rfl, ha, hl⟩ := hc
    obtain ⟨m, rfl, hm⟩ := hc'.exists_cons ha
    rw [ih hl hm]

/-- The head pointer is the first node, or null. -/
theorem Chain.head_eq {h : α} {l : List α} (hc : Chain null next h l) : l.headD null = h := by
  cases l with
  | nil => exact hc.symm
  | cons a l => exact hc.1.symm

/-- What a chain looks like from one of its nodes on. -/
theorem Chain.tail_of_append {h a : α} {l m : List α} (hc : Chain null next h (l ++ a :: m)) :
    Chain null next (next a) m := by
  induction l generalizing h with
  | nil => exact hc.2.2
  | cons b l ih => exact ih hc.2.2

/-- No node repeats: a repeated node would give its tail two lengths. -/
theorem Chain.nodup {h : α} {l : List α} (hc : Chain null next h l) : l.Nodup := by
  induction l generalizing h with
  | nil => exact List.nodup_nil
  | cons a l ih =>
    obtain ⟨_, _, hl⟩ := hc
    refine List.nodup_cons.mpr ⟨fun ha => ?_, ih hl⟩
    obtain ⟨l₁, l₂, rfl⟩ := List.append_of_mem ha
    have e := hl.unique hl.tail_of_append
    have := congrArg List.length e
    simp at this
    omega

/-- The parts of a chain around one of its nodes do not meet it or each other. -/
theorem Chain.apart {h b : α} {l m : List α} (hc : Chain null next h (l ++ b :: m)) :
    b ∉ l ∧ b ∉ m ∧ ∀ a ∈ l, a ∉ m := by
  have hnd := List.nodup_append.mp hc.nodup
  refine ⟨fun hl => hnd.2.2 b hl b List.mem_cons_self rfl, (List.nodup_cons.mp hnd.2.1).1, ?_⟩
  intro a ha hm
  exact hnd.2.2 a ha a (List.mem_cons_of_mem _ hm) rfl

theorem Chain.congr {next' : α → α} {h : α} {l : List α} (hc : Chain null next h l)
    (e : ∀ a ∈ l, next' a = next a) : Chain null next' h l := by
  induction l generalizing h with
  | nil => exact hc
  | cons a l ih =>
    obtain ⟨rfl, ha, hl⟩ := hc
    refine ⟨rfl, ha, ?_⟩
    rw [e _ List.mem_cons_self]
    exact ih hl (fun b hb => e b (List.mem_cons_of_mem _ hb))

/-- Up to a node `a`, only the links before `a` matter. -/
theorem Chain.relink {next' : α → α} {h a : α} {l m₀ m : List α}
    (hc : Chain null next h (l ++ a :: m₀)) (e : ∀ b ∈ l, next' b = next b)
    (hm : Chain null next' (next' a) m) : Chain null next' h (l ++ a :: m) := by
  induction l generalizing h with
  | nil => exact ⟨hc.1, hc.2.1, hm⟩
  | cons b l ih =>
    obtain ⟨rfl, hb, hl⟩ := hc
    refine ⟨rfl, hb, ?_⟩
    rw [e _ List.mem_cons_self]
    exact ih hl (fun c hc => e c (List.mem_cons_of_mem _ hc))

/-- Two nodes of a chain do not link to the same place. -/
theorem Chain.next_inj {h x y : α} {l : List α} (hc : Chain null next h l) (hx : x ∈ l) (hy : y ∈ l)
    (e : next x = next y) : x = y := by
  obtain ⟨l₁, m₁, h₁⟩ := List.append_of_mem hx
  obtain ⟨l₂, m₂, h₂⟩ := List.append_of_mem hy
  have hm : m₁ = m₂ := by
    have ht₁ := (h₁ ▸ hc).tail_of_append
    have ht₂ := (h₂ ▸ hc).tail_of_append
    exact ht₁.unique (e ▸ ht₂)
  -- so both are the node just before the same tail
  have hlen : l₁.length = l₂.length := by
    have := congrArg List.length (h₁.symm.trans h₂)
    simp only [List.length_append, List.length_cons, hm] at this
    omega
  have hsplit := (List.append_inj (h₁.symm.trans h₂) hlen).2
  exact (List.cons.inj hsplit).1

/-- What a chain passes on its way, its end included, is linked to by a node of it, or is
its head. -/
theorem Chain.exists_link {h x : α} {l : List α} (hc : Chain null next h l) (hx : x = null ∨ x ∈ l)
    (hne : x ≠ h) : ∃ y ∈ l, next y = x := by
  induction l generalizing h with
  | nil =>
    have hh : h = null := hc
    exact absurd ((hx.resolve_right List.not_mem_nil).trans hh.symm) hne
  | cons a l ih =>
    obtain ⟨rfl, -, hl⟩ := hc
    by_cases e : x = next h
    · exact ⟨h, List.mem_cons_self, e.symm⟩
    · have hx' : x = null ∨ x ∈ l := hx.imp_right fun hm => (List.mem_cons.mp hm).resolve_left hne
      obtain ⟨y, hy, hyx⟩ := ih hl hx' e
      exact ⟨y, List.mem_cons_of_mem _ hy, hyx⟩

/-- The last node reached from `a` within `fuel` links. -/
def lastFrom [DecidableEq α] (null : α) (next : α → α) : Nat → α → α
  | 0, a => a
  | fuel + 1, a => if next a = null then a else lastFrom null next fuel (next a)

/-- Backward links: the first node of `l` points back to `p`. -/
def Back (prev : α → α) : α → List α → Prop
  | _, [] => True
  | p, a :: l => prev a = p ∧ Back prev a l

theorem Back.congr {prev' : α → α} {p : α} {l : List α} (hb : Back prev p l)
    (e : ∀ a ∈ l, prev' a = prev a) : Back prev' p l := by
  induction l generalizing p with
  | nil => trivial
  | cons a l ih =>
    obtain ⟨ha, hl⟩ := hb
    exact ⟨by rw [e a List.mem_cons_self]; exact ha,
      ih hl (fun b hb => e b (List.mem_cons_of_mem _ hb))⟩

/-- The node before `a`: the last of what comes before it, or the list's own `p`. -/
theorem Back.at_mem {p a : α} {l m : List α} (hb : Back prev p (l ++ a :: m)) :
    prev a = (l.getLast?).getD p ∧ Back prev a m := by
  induction l generalizing p with
  | nil => exact hb
  | cons b l ih =>
    obtain ⟨h1, h2⟩ := ih hb.2
    refine ⟨?_, h2⟩
    rw [h1]
    cases l <;> simp [List.getLast?_cons]

theorem Back.of_append {p : α} {l m : List α} (hb : Back prev p (l ++ m)) : Back prev p l := by
  induction l generalizing p with
  | nil => trivial
  | cons b l ih => exact ⟨hb.1, ih hb.2⟩

theorem Back.append {p : α} {l m : List α} (hl : Back prev p l)
    (hm : Back prev ((l.getLast?).getD p) m) : Back prev p (l ++ m) := by
  induction l generalizing p with
  | nil => simpa using hm
  | cons b l ih =>
    refine ⟨hl.1, ih hl.2 ?_⟩
    convert hm using 1
    cases l <;> simp [List.getLast?_cons]

variable {head : ι → α} {place : α → Option ι} {L : ι → List α}

/-- List `i` is reached from `head i`, and a node is in the list its `place` names. -/
structure Shelved (null : α) (next : α → α) (head : ι → α) (place : α → Option ι)
    (L : ι → List α) : Prop where
  chain : ∀ i, Chain null next (head i) (L i)
  mem : ∀ i a, a ∈ L i ↔ place a = some i

theorem Shelved.notMem_of_ne (h : Shelved null next head place L) {a : α} {i : ι}
    (hp : place a ≠ some i) : a ∉ L i := fun hm => hp ((h.mem i a).mp hm)

theorem Shelved.nodup (h : Shelved null next head place L) (i : ι) : (L i).Nodup := (h.chain i).nodup

section write
variable [DecidableEq α] [DecidableEq ι]

theorem Chain.update {h b v : α} {l : List α} (hc : Chain null next h l) (hb : b ∉ l) :
    Chain null (Function.update next b v) h l :=
  hc.congr (fun _ ha => Function.update_of_ne (ne_of_mem_of_not_mem ha hb) _ _)

theorem Back.update {p b v : α} {l : List α} (hl : Back prev p l) (hb : b ∉ l) :
    Back (Function.update prev b v) p l :=
  hl.congr (fun _ ha => Function.update_of_ne (ne_of_mem_of_not_mem ha hb) _ _)

/-- Linking a fresh node in front of a doubly linked list: the old first node, if there is
one, points back to it. -/
theorem Back.push {h b : α} {l : List α} (hc : Chain null next h l) (hl : Back prev null l)
    (hb : b ∉ l) :
    Back (if h = null then Function.update prev b null
      else Function.update (Function.update prev b null) h b) null (b :: l) := by
  have hnodup := hc.nodup
  cases l with
  | nil =>
    have hn : h = null := hc
    rw [if_pos hn]
    exact ⟨Function.update_self .., trivial⟩
  | cons a l =>
    obtain ⟨rfl, ha, -⟩ := hc
    have hne : b ≠ h := fun e => hb (by simp [e])
    have hnd := (List.nodup_cons.mp hnodup).1
    rw [if_neg ha]
    refine ⟨by rw [Function.update_of_ne hne, Function.update_self], Function.update_self .., ?_⟩
    exact (hl.2.update (fun hm => hb (List.mem_cons_of_mem _ hm))).update hnd

theorem Chain.push {h b : α} {l : List α} (hc : Chain null next h l) (hb : b ≠ null)
    (hm : b ∉ l) : Chain null (Function.update next b h) b (b :: l) := by
  refine ⟨rfl, hb, ?_⟩
  rw [Function.update_self]
  exact hc.update hm

/-- Unlinking a node from a doubly linked list, written as the code writes it:
through the node before it if there is one, else through the head. -/
def unlinkNext (null : α) (next prev : α → α) (b : α) : α → α :=
  Function.update (if prev b = null then next else Function.update next (prev b) (next b)) b null

def unlinkPrev (null : α) (next prev : α → α) (b : α) : α → α :=
  Function.update (if next b = null then prev else Function.update prev (next b) (prev b)) b null

def unlinkHead (null : α) (next prev : α → α) (h b : α) : α :=
  if prev b = null ∧ h = b then next b else h

section unlink
variable {h b : α} {l m : List α}

omit [DecidableEq α] in
theorem Chain.first (hc : Chain null next h (l ++ b :: m)) (hp : (l.getLast?).getD null = null) :
    h = b := by
  rcases List.eq_nil_or_concat l with rfl | ⟨l', a, rfl⟩
  · exact hc.1
  · rw [List.concat_eq_append, List.getLast?_concat, Option.getD_some] at hp
    exact absurd hp (hc.ne_null a (by simp))

/-- Only the link back from the node itself is used, so this also removes a node from a singly
linked list whose scan has kept the node before. -/
theorem Chain.unlink (hc : Chain null next h (l ++ b :: m)) (hprev : prev b = (l.getLast?).getD null) :
    Chain null (unlinkNext null next prev b) (unlinkHead null next prev h b) (l ++ m) := by
  obtain ⟨hbl, hbm, hlm⟩ := hc.apart
  have htail := hc.tail_of_append
  rcases List.eq_nil_or_concat l with rfl | ⟨l', a, rfl⟩
  · -- first node: only the head moves
    have hp : prev b = null := by simpa using hprev
    have hh : h = b := hc.1
    simp only [unlinkNext, unlinkHead, hp, hh, and_self, if_true, List.nil_append]
    exact htail.update hbm
  · -- inner node: the node before it takes over its link
    rw [List.concat_eq_append] at hbl hlm
    have hp : prev b = a := by simpa using hprev
    have hpn : ¬ prev b = null := by rw [hp]; exact hc.ne_null a (by simp)
    have hab : a ≠ b := fun e => hbl (by simp [e])
    have hsplit : Chain null next h (l' ++ a :: (b :: m)) := by simpa using hc
    have hout : ∀ c, c ≠ b → c ≠ a → unlinkNext null next prev b c = next c := by
      intro c hcb hca
      rw [unlinkNext, if_neg hpn, hp, Function.update_of_ne hcb, Function.update_of_ne hca]
    have hat : unlinkNext null next prev b a = next b := by
      rw [unlinkNext, if_neg hpn, hp, Function.update_of_ne hab, Function.update_self]
    rw [unlinkHead, if_neg (fun e => hpn e.1), List.concat_eq_append, List.append_assoc]
    refine hsplit.relink (fun c hcl => ?_) ?_
    · exact hout c (ne_of_mem_of_not_mem (List.mem_append_left _ hcl) hbl)
        (ne_of_mem_of_not_mem hcl hsplit.apart.1)
    · rw [hat]
      exact htail.congr (fun c hcm => hout c (ne_of_mem_of_not_mem hcm hbm)
        (ne_of_mem_of_not_mem hcm (hlm a (by simp))))

theorem Back.unlink (hc : Chain null next h (l ++ b :: m)) (hb : Back prev null (l ++ b :: m)) :
    Back (unlinkPrev null next prev b) null (l ++ m) := by
  obtain ⟨hbl, hbm, hlm⟩ := hc.apart
  obtain ⟨hprev, hbackm⟩ := hb.at_mem
  have htail := hc.tail_of_append
  cases m with
  | nil =>
    have hn : next b = null := htail
    simp only [unlinkPrev, hn, if_true, List.append_nil]
    exact hb.of_append.update hbl
  | cons c m =>
    obtain ⟨hn, hcn, -⟩ := htail
    have hnn : ¬ next b = null := by rw [hn]; exact hcn
    have hcb : c ≠ b := fun e => hbm (by simp [e])
    have hcm : c ∉ m := (List.nodup_cons.mp hc.tail_of_append.nodup).1
    have hout : ∀ d, d ≠ b → d ≠ c → unlinkPrev null next prev b d = prev d := by
      intro d h1 h2
      rw [unlinkPrev, if_neg hnn, hn, Function.update_of_ne h1, Function.update_of_ne h2]
    refine Back.append (hb.of_append.congr (fun d hd => hout d (ne_of_mem_of_not_mem hd hbl)
      (fun e => hlm d hd (by simp [e])))) ⟨?_, ?_⟩
    · rw [unlinkPrev, if_neg hnn, hn, Function.update_of_ne hcb, Function.update_self, hprev]
    · exact hbackm.2.congr (fun d hd => hout d
        (ne_of_mem_of_not_mem (List.mem_cons_of_mem _ hd) hbm) (ne_of_mem_of_not_mem hd hcm))

end unlink

/-! ## Operations on lists that share the link field -/

namespace Shelved

omit [DecidableEq ι] in
/-- Writing the link of a node that is in no list disturbs none. -/
theorem setNext (h : Shelved null next head place L) {a v : α} (ha : place a = none) :
    Shelved null (Function.update next a v) head place L where
  chain i := (h.chain i).update (h.notMem_of_ne (by rw [ha]; exact nofun))
  mem := h.mem

theorem push (h : Shelved null next head place L) {a : α} {i : ι} (ha : place a = none)
    (hn : a ≠ null) :
    Shelved null (Function.update next a (head i)) (Function.update head i a)
      (Function.update place a (some i)) (Function.update L i (a :: L i)) where
  chain j := by
    have hout : ∀ j, a ∉ L j := fun j => h.notMem_of_ne (by rw [ha]; exact nofun)
    by_cases hj : j = i
    · subst hj
      simp only [Function.update_self]
      exact (h.chain j).push hn (hout j)
    · simp only [Function.update_of_ne hj]
      exact (h.chain j).update (hout j)
  mem j b := by
    by_cases hb : b = a
    · subst hb
      by_cases hj : j = i
      · subst hj; simp
      · have : i ≠ j := fun e => hj e.symm
        simp [Function.update_of_ne hj, h.mem j b, ha, this]
    · by_cases hj : j = i
      · subst hj; simp [hb, h.mem j b]
      · simp [Function.update_of_ne hj, hb, h.mem j b]

theorem pop (h : Shelved null next head place L) {a : α} {i : ι} {l : List α}
    (hl : L i = a :: l) :
    Shelved null next (Function.update head i (next a)) (Function.update place a none)
      (Function.update L i l) where
  chain j := by
    by_cases hj : j = i
    · subst hj
      have hc := h.chain j
      rw [hl] at hc
      simp only [Function.update_self]
      exact hc.2.2
    · simp only [Function.update_of_ne hj]
      exact h.chain j
  mem j b := by
    have ha : place a = some i := (h.mem i a).mp (by simp [hl])
    have hnd : a ∉ l := (List.nodup_cons.mp (hl ▸ h.nodup i)).1
    by_cases hb : b = a
    · subst hb
      by_cases hj : j = i
      · subst hj; simp [hnd]
      · have : i ≠ j := fun e => hj e.symm
        simp [Function.update_of_ne hj, h.mem j b, ha, this]
    · by_cases hj : j = i
      · subst hj
        have := h.mem j b
        rw [hl] at this
        simpa [hb] using this
      · simp [Function.update_of_ne hj, hb, h.mem j b]

/-- Unlinking a node from the middle of list `i`, where `prev` knows the node before it. -/
theorem unlink (h : Shelved null next head place L) {a : α} {i : ι} {l m : List α}
    (hl : L i = l ++ a :: m) (hp : prev a = (l.getLast?).getD null) :
    Shelved null (unlinkNext null next prev a)
      (Function.update head i (unlinkHead null next prev (head i) a))
      (Function.update place a none) (Function.update L i (l ++ m)) where
  chain j := by
    have hci := h.chain i
    rw [hl] at hci
    by_cases hj : j = i
    · subst hj
      simp only [Function.update_self]
      exact hci.unlink hp
    · -- another list holds neither the node nor the one before it
      simp only [Function.update_of_ne hj]
      have hout : ∀ b ∈ L i, b ∉ L j := fun b hbi hbj => by
        have e := ((h.mem i b).mp hbi).symm.trans ((h.mem j b).mp hbj)
        exact hj (Option.some.inj e).symm
      have ha : a ∉ L j := hout a (by simp [hl])
      by_cases hpn : prev a = null
      · rw [unlinkNext, if_pos hpn]
        exact (h.chain j).update ha
      · have hpm : prev a ∈ L i := by
          rw [hl]
          cases hg : l.getLast? with
          | none => rw [hg] at hp; exact absurd hp hpn
          | some c =>
            rw [hg] at hp
            rw [hp]
            exact List.mem_append_left _ (List.mem_of_getLast? hg)
        rw [unlinkNext, if_neg hpn]
        exact ((h.chain j).update (hout _ hpm)).update ha
  mem j b := by
    have ha : place a = some i := (h.mem i a).mp (by simp [hl])
    have hci := h.chain i
    rw [hl] at hci
    obtain ⟨hal, ham, -⟩ := hci.apart
    by_cases hba : b = a
    · subst hba
      by_cases hj : j = i
      · subst hj; simp [hal, ham]
      · have : i ≠ j := fun e => hj e.symm
        simp [Function.update_of_ne hj, h.mem j b, ha, this]
    · by_cases hj : j = i
      · subst hj
        have := h.mem j b
        rw [hl] at this
        rw [Function.update_of_ne hba]
        simpa [hba] using this
      · simp [Function.update_of_ne hj, hba, h.mem j b]

end Shelved
end write

end MyMalloc
