import MyMalloc.Lib.Links
import Mathlib.Data.List.Chain

/- Circular doubly linked lists through a sentinel.

   A list is the cycle from its sentinel through its nodes and back, and every step
   of the cycle is linked both ways. Seen like this the sentinel is a node like the
   others: a node is put in, or taken out, by writing one forward and one backward
   link, wherever it is. From the sentinel on, the forward links are a `Chain` that
   ends at the sentinel. -/
namespace MyMalloc

variable {α : Type} {fd bk fd' bk' : α → α} {s : α} {l : List α}

/-- `b` comes after `a`, and `a` before `b`. -/
def Linked (fd bk : α → α) (a b : α) : Prop := fd a = b ∧ bk b = a

/-- Only the forward links of all but the last and the backward links of all but the first matter. -/
theorem isChain_linked_congr (h : l.IsChain (Linked fd bk)) (hfd : ∀ a ∈ l.dropLast, fd' a = fd a)
    (hbk : ∀ a ∈ l.tail, bk' a = bk a) : l.IsChain (Linked fd' bk') := by
  induction l with
  | nil => exact .nil
  | cons a l ih =>
    cases l with
    | nil => exact .singleton a
    | cons b l =>
      obtain ⟨⟨h1, h2⟩, htl⟩ := List.isChain_cons_cons.mp h
      refine List.isChain_cons_cons.mpr ⟨⟨?_, ?_⟩, ih htl (fun c hc => hfd c ?_) fun c hc => hbk c ?_⟩
      · rw [hfd a (by simp), h1]
      · rw [hbk b (by simp), h2]
      · rw [List.dropLast_cons_cons]
        exact List.mem_cons_of_mem _ hc
      · exact List.mem_cons_of_mem _ hc

/-- The nodes of `l` in a circle with the sentinel `s`. -/
structure Loop (fd bk : α → α) (s : α) (l : List α) : Prop where
  links : (s :: (l ++ [s])).IsChain (Linked fd bk)
  once : (s :: l).Nodup

namespace Loop

theorem notMem (h : Loop fd bk s l) : s ∉ l := (List.nodup_cons.mp h.once).1

theorem nodup (h : Loop fd bk s l) : l.Nodup := (List.nodup_cons.mp h.once).2

theorem nil (hfd : fd s = s) (hbk : bk s = s) : Loop fd bk s [] :=
  ⟨List.isChain_pair.mpr ⟨hfd, hbk⟩, List.nodup_singleton s⟩

theorem congr (h : Loop fd bk s l) (hfd : ∀ a, a = s ∨ a ∈ l → fd' a = fd a)
    (hbk : ∀ a, a = s ∨ a ∈ l → bk' a = bk a) : Loop fd' bk' s l := by
  refine ⟨isChain_linked_congr h.links (fun a ha => hfd a ?_) (fun a ha => hbk a ?_), h.once⟩
  · rw [← List.cons_append, List.dropLast_concat] at ha
    exact List.mem_cons.mp ha
  · rcases List.mem_append.mp ha with ha | ha
    · exact .inr ha
    · exact .inl (List.mem_singleton.mp ha)

/-- The node before `a` in the circle, and the node after it. -/
theorem around {a : α} {l₁ l₂ : List α} (h : Loop fd bk s (l₁ ++ a :: l₂)) :
    ∃ u v, s :: l₁ = u ++ [bk a] ∧ l₂ ++ [s] = fd a :: v ∧ fd (bk a) = a ∧ bk (fd a) = a ∧
      (u ++ [bk a]).IsChain (Linked fd bk) ∧ (fd a :: v).IsChain (Linked fd bk) := by
  obtain ⟨u, p, hu⟩ : ∃ u p, s :: l₁ = u ++ [p] :=
    ⟨_, _, (List.dropLast_append_getLast (List.cons_ne_nil s l₁)).symm⟩
  obtain ⟨q, v, hv⟩ : ∃ q v, l₂ ++ [s] = q :: v := by
    cases l₂ with
    | nil => exact ⟨s, [], rfl⟩
    | cons c l => exact ⟨c, l ++ [s], rfl⟩
  have hlinks := h.links
  rw [List.append_assoc, List.cons_append, hv, ← List.cons_append, hu, List.append_assoc,
    List.singleton_append, List.isChain_append_cons_cons] at hlinks
  obtain ⟨h1, ⟨hpa, hap⟩, h2⟩ := hlinks
  obtain ⟨⟨haq, hqa⟩, h3⟩ := List.isChain_cons_cons.mp h2
  subst hap haq
  exact ⟨u, v, hu, hv, hpa, hqa, h1, h3⟩

theorem fd_mem {a : α} (h : Loop fd bk s l) (ha : a = s ∨ a ∈ l) : fd a = s ∨ fd a ∈ l := by
  rcases ha with rfl | ha
  · cases l with
    | nil => exact .inl (List.isChain_pair.mp h.links).1
    | cons b l => exact .inr ((List.isChain_cons_cons.mp h.links).1.1 ▸ List.mem_cons_self)
  · obtain ⟨l₁, l₂, rfl⟩ := List.append_of_mem ha
    obtain ⟨u, v, -, hv, -⟩ := h.around
    have hmem : fd a ∈ l₂ ++ [s] := hv ▸ List.mem_cons_self
    rcases List.mem_append.mp hmem with hm | hm
    · exact .inr (List.mem_append_right _ (List.mem_cons_of_mem _ hm))
    · exact .inl (List.mem_singleton.mp hm)

theorem bk_mem {a : α} (h : Loop fd bk s l) (ha : a ∈ l) : bk a = s ∨ bk a ∈ l := by
  obtain ⟨l₁, l₂, rfl⟩ := List.append_of_mem ha
  obtain ⟨u, v, hu, -⟩ := h.around
  have hmem : bk a ∈ s :: l₁ := hu ▸ List.mem_append_right _ (List.mem_singleton_self _)
  exact (List.mem_cons.mp hmem).imp_right (List.mem_append_left _)

/-- From a node on, the forward links lead back to the sentinel. -/
theorem chain_from {a : α} (h : (a :: (l ++ [s])).IsChain (Linked fd bk)) (hs : s ∉ l) :
    Chain s fd (fd a) l := by
  induction l generalizing a with
  | nil => exact (List.isChain_pair.mp h).1
  | cons b l ih =>
    obtain ⟨⟨hab, -⟩, htl⟩ := List.isChain_cons_cons.mp h
    exact ⟨hab, fun e => hs (e ▸ List.mem_cons_self), ih htl (fun hm => hs (List.mem_cons_of_mem _ hm))⟩

theorem chain (h : Loop fd bk s l) : Chain s fd (fd s) l := chain_from h.links h.notMem

/-- The other way round it is a circle as well. -/
theorem reverse (h : Loop fd bk s l) : Loop bk fd s l.reverse := by
  refine ⟨?_, ?_⟩
  · have hrev : s :: (l.reverse ++ [s]) = (s :: (l ++ [s])).reverse := by simp
    rw [hrev, List.isChain_reverse]
    exact h.links.imp fun a b hab => ⟨hab.2, hab.1⟩
  · exact List.nodup_cons.mpr ⟨fun hm => h.notMem (List.mem_reverse.mp hm), List.nodup_reverse.mpr h.nodup⟩

section write
variable [DecidableEq α]

/-- A new node behind the sentinel: its own two links, and those of its neighbours. -/
theorem push {p : α} (h : Loop fd bk s l) (hs : p ≠ s) (hp : p ∉ l) :
    Loop (Function.update (Function.update fd p (fd s)) s p)
      (Function.update (Function.update bk p s) (fd s) p) s (p :: l) := by
  obtain ⟨q, v, hv⟩ : ∃ q v, l ++ [s] = q :: v := by
    cases l with
    | nil => exact ⟨s, [], rfl⟩
    | cons c l => exact ⟨c, l ++ [s], rfl⟩
  have hlinks := h.links
  rw [hv] at hlinks
  obtain ⟨⟨hsq, -⟩, htl⟩ := List.isChain_cons_cons.mp hlinks
  have hnodup : (q :: v).Nodup := by
    rw [← hv]
    exact List.nodup_append_comm.mp h.once
  have hpv : p ∉ q :: v := by
    rw [← hv]
    intro hm
    rcases List.mem_append.mp hm with hm | hm
    · exact hp hm
    · exact hs (List.mem_singleton.mp hm)
  have hpq : p ≠ q := fun e => hpv (e ▸ List.mem_cons_self)
  subst hsq
  refine ⟨?_, List.nodup_cons.mpr ⟨?_, List.nodup_cons.mpr ⟨hp, h.nodup⟩⟩⟩
  · rw [List.cons_append, hv]
    refine List.isChain_cons_cons.mpr ⟨⟨?_, ?_⟩, List.isChain_cons_cons.mpr ⟨⟨?_, ?_⟩, ?_⟩⟩
    · exact Function.update_self ..
    · rw [Function.update_of_ne hpq, Function.update_self]
    · rw [Function.update_of_ne hs, Function.update_self]
    · exact Function.update_self ..
    · refine isChain_linked_congr htl (fun a ha => ?_) (fun a ha => ?_)
      · -- the last node of the circle is the sentinel, so no other is
        rw [← hv, List.dropLast_concat] at ha
        rw [Function.update_of_ne (ne_of_mem_of_not_mem ha h.notMem),
          Function.update_of_ne (ne_of_mem_of_not_mem ha hp)]
      · have hq : a ≠ fd s := ne_of_mem_of_not_mem ha (List.nodup_cons.mp hnodup).1
        rw [Function.update_of_ne hq,
          Function.update_of_ne (ne_of_mem_of_not_mem (List.mem_cons_of_mem _ ha) hpv)]
  · exact fun hm => (List.mem_cons.mp hm).elim (fun e => hs e.symm) h.notMem

theorem unlink {a : α} {l₁ l₂ : List α} (h : Loop fd bk s (l₁ ++ a :: l₂)) :
    Loop (Function.update fd (bk a) (fd a)) (Function.update bk (fd a) (bk a)) s (l₁ ++ l₂) := by
  obtain ⟨u, v, hu, hv, -, -, h1, h2⟩ := h.around
  have hsub : (l₁ ++ l₂).Sublist (l₁ ++ a :: l₂) := (List.sublist_cons_self a l₂).append_left l₁
  have honce : (s :: (l₁ ++ l₂)).Nodup := h.once.sublist (hsub.cons_cons s)
  have hfront : (u ++ [bk a]).Nodup := hu ▸ honce.sublist ((List.sublist_append_left l₁ l₂).cons_cons s)
  have hback : (fd a :: v).Nodup := by
    rw [← hv]
    exact List.nodup_append_comm.mp (honce.sublist ((List.sublist_append_right l₁ l₂).cons_cons s))
  refine ⟨?_, honce⟩
  rw [List.append_assoc, hv, ← List.cons_append, hu, List.append_assoc, List.singleton_append,
    List.isChain_append_cons_cons]
  refine ⟨isChain_linked_congr h1 (fun x hx => ?_) (fun x hx => ?_),
    ⟨Function.update_self .., Function.update_self ..⟩,
    isChain_linked_congr h2 (fun x hx => ?_) (fun x hx => ?_)⟩
  · rw [List.dropLast_concat] at hx
    refine Function.update_of_ne (fun e => ?_) _ _
    exact (List.nodup_append.mp hfront).2.2 x hx x (e ▸ List.mem_singleton_self _) rfl
  · -- in front of `a` no node is the one behind it
    rw [← hu] at hx
    have hx : x ∈ l₁ := hx
    refine Function.update_of_ne (fun e => ?_) _ _
    have hm : x ∈ l₂ ++ [s] := hv ▸ e ▸ List.mem_cons_self
    rcases List.mem_append.mp hm with hm | hm
    · exact (List.nodup_append.mp (List.nodup_cons.mp honce).2).2.2 x hx x hm rfl
    · exact (List.nodup_cons.mp honce).1 (List.mem_singleton.mp hm ▸ List.mem_append_left _ hx)
  · rw [← hv, List.dropLast_concat] at hx
    refine Function.update_of_ne (fun e => ?_) _ _
    have hm : x ∈ s :: l₁ := hu ▸ e ▸ List.mem_append_right _ (List.mem_singleton_self _)
    rcases List.mem_cons.mp hm with rfl | hm
    · exact (List.nodup_cons.mp honce).1 (List.mem_append_right _ hx)
    · exact (List.nodup_append.mp (List.nodup_cons.mp honce).2).2.2 x hm x hx rfl
  · exact Function.update_of_ne (ne_of_mem_of_not_mem hx (List.nodup_cons.mp hback).1) _ _

end write

end Loop

end MyMalloc
