import Mathlib.Data.List.Perm.Basic
import Mathlib.Data.List.Pairwise

/- Grouping a list by a key into a dictionary that keeps the order in which its
   keys came.

   `groups` is the loop `d.setdefault(key(x), []).append(x)`. Each group is the
   sublist of its key (`mem_groups`), so going through the groups one after the
   other visits every item once, in another order: `regroup`. The order is the
   old one exactly if the items of a key were next to each other before
   (`regroup_eq_iff`). -/
namespace MyMalloc

variable {α κ : Type} [DecidableEq κ]

/-- `d.setdefault(k, []).append(x)`. -/
def addTo (k : κ) (x : α) : List (κ × List α) → List (κ × List α)
  | [] => [(k, [x])]
  | (k', xs) :: gs => if k' = k then (k', xs ++ [x]) :: gs else (k', xs) :: addTo k x gs

/-- The dictionary after the loop, in the order of its keys. -/
def groups (key : α → κ) (l : List α) : List (κ × List α) :=
  l.foldl (fun gs x => addTo (key x) x gs) []

/-- The items group by group. -/
def regroup (key : α → κ) (l : List α) : List α := (groups key l).flatMap (·.2)

/-- Between two items of one key there are no others. -/
def Contiguous (key : α → κ) (l : List α) : Prop :=
  ∀ a b c, [a, b, c].Sublist l → key a = key c → key b = key a

/-! ## The loop -/

/-- The first group takes the items of its key, the others go on to the rest. -/
theorem foldl_addTo (key : α → κ) (k : κ) (xs : List α) (gs : List (κ × List α)) (l : List α) :
    l.foldl (fun gs x => addTo (key x) x gs) ((k, xs) :: gs) =
      (k, xs ++ l.filter (key · = k)) ::
        (l.filter (key · ≠ k)).foldl (fun gs x => addTo (key x) x gs) gs := by
  induction l generalizing xs gs with
  | nil => simp
  | cons x l ih =>
    rw [List.foldl_cons, addTo]
    by_cases hx : key x = k
    · rw [if_pos hx.symm, ih, List.filter_cons_of_pos (by simpa using hx),
        List.filter_cons_of_neg (by simpa using hx), List.append_assoc]
      rfl
    · rw [if_neg (Ne.symm hx), ih, List.filter_cons_of_neg (by simpa using hx),
        List.filter_cons_of_pos (by simpa using hx)]
      rfl

theorem groups_cons (key : α → κ) (x : α) (l : List α) :
    groups key (x :: l) =
      (key x, x :: l.filter (key · = key x)) :: groups key (l.filter (key · ≠ key x)) := by
  simpa only [groups, List.foldl_cons, addTo, List.singleton_append] using
    foldl_addTo key (key x) [x] [] l

theorem regroup_cons (key : α → κ) (x : α) (l : List α) :
    regroup key (x :: l) =
      x :: (l.filter (key · = key x) ++ regroup key (l.filter (key · ≠ key x))) := by
  rw [regroup, groups_cons, List.flatMap_cons]
  rfl

/-- Induction along the groups: what is left after the first group is shorter. -/
theorem groups_induction (key : α → κ) {motive : List α → Prop} (nil : motive [])
    (cons : ∀ x l, motive (l.filter (key · ≠ key x)) → motive (x :: l)) (l : List α) : motive l := by
  induction hn : l.length using Nat.strongRecOn generalizing l with
  | _ n ih =>
    cases l with
    | nil => exact nil
    | cons x l =>
      have hlt : (l.filter (key · ≠ key x)).length < n := by
        have := List.length_filter_le (key · ≠ key x) l
        rw [List.length_cons] at hn
        omega
      exact cons x l (ih _ hlt _ rfl)

/-- A group consists of the items of its key, of which there is one at least. -/
theorem mem_groups {key : α → κ} {l : List α} {k : κ} {xs : List α} (h : (k, xs) ∈ groups key l) :
    xs = l.filter (key · = k) ∧ ∃ x ∈ l, key x = k := by
  induction l using groups_induction key with
  | nil => exact absurd h List.not_mem_nil
  | cons x l ih =>
    rw [groups_cons] at h
    rcases List.mem_cons.mp h with h | h
    · obtain ⟨rfl, rfl⟩ := Prod.mk.inj h
      exact ⟨(List.filter_cons_of_pos (by simp)).symm, x, List.mem_cons_self, rfl⟩
    · obtain ⟨rfl, y, hy, rfl⟩ := ih h
      obtain ⟨hyl, hne⟩ := List.mem_filter.mp hy
      have hne : key y ≠ key x := by simpa using hne
      refine ⟨?_, y, List.mem_cons_of_mem _ hyl, rfl⟩
      rw [List.filter_cons_of_neg (by simpa using Ne.symm hne), List.filter_filter]
      refine List.filter_congr fun z _ => ?_
      by_cases hz : key z = key y
      · simp [hz, hne]
      · simp [hz]

/-- The group of an item is found under its key. -/
theorem find?_groups (key : α → κ) {l : List α} {x : α} (hx : x ∈ l) :
    (groups key l).find? (·.1 = key x) = some (key x, l.filter (key · = key x)) := by
  induction l using groups_induction key with
  | nil => exact absurd hx List.not_mem_nil
  | cons y l ih =>
    rw [groups_cons]
    by_cases hk : key y = key x
    · rw [List.find?_cons_of_pos (by simpa using hk), List.filter_cons_of_pos (by simpa using hk), hk]
    · rw [List.find?_cons_of_neg (by simpa using hk), List.filter_cons_of_neg (by simpa using hk)]
      have hmem : x ∈ l.filter (key · ≠ key y) := by
        refine List.mem_filter.mpr ⟨(List.mem_cons.mp hx).resolve_left ?_, by simpa using Ne.symm hk⟩
        rintro rfl
        exact hk rfl
      rw [ih hmem, List.filter_filter]
      refine congrArg (fun xs => some (key x, xs)) (List.filter_congr fun z _ => ?_)
      by_cases hz : key z = key x
      · simp [hz, Ne.symm hk]
      · simp [hz]

theorem groups_map {β : Type} (key : β → κ) (f : α → β) (l : List α) :
    groups key (l.map f) = (groups (key ∘ f) l).map fun g => (g.1, g.2.map f) := by
  induction l using groups_induction (key ∘ f) with
  | nil => rfl
  | cons x l ih =>
    rw [List.map_cons, groups_cons, groups_cons, List.map_cons, List.filter_map, List.filter_map]
    exact congrArg _ ih

theorem regroup_map {β : Type} (key : β → κ) (f : α → β) (l : List α) :
    regroup key (l.map f) = (regroup (key ∘ f) l).map f := by
  rw [regroup, groups_map, regroup, List.map_flatMap, List.flatMap_map]

/-- Every item is visited once. -/
theorem regroup_perm (key : α → κ) (l : List α) : (regroup key l).Perm l := by
  induction l using groups_induction key with
  | nil => exact .refl _
  | cons x l ih =>
    rw [regroup_cons]
    refine ((ih.append_left _).trans ?_).cons x
    simpa using List.filter_append_perm (key · = key x) l

/-! ## When the order stays -/

omit [DecidableEq κ] in
theorem Contiguous.sublist {key : α → κ} {l l' : List α} (h : Contiguous key l) (hl : l'.Sublist l) :
    Contiguous key l' :=
  fun a b c habc => h a b c (habc.trans hl)

/-- If no item that satisfies `p` comes after one that does not, filtering splits the list. -/
theorem filter_append_of_pairwise {p : α → Bool} {l : List α}
    (h : l.Pairwise fun a b => p b = true → p a = true) :
    l.filter p ++ l.filter (fun a => !p a) = l := by
  induction l with
  | nil => rfl
  | cons x l ih =>
    rw [List.pairwise_cons] at h
    by_cases hx : p x = true
    · rw [List.filter_cons_of_pos hx, List.filter_cons_of_neg (by simpa using hx), List.cons_append, ih h.2]
    · have hnone : ∀ y ∈ l, ¬ p y = true := fun y hy hp => hx (h.1 y hy hp)
      rw [List.filter_cons_of_neg hx, List.filter_cons_of_pos (by simpa using hx),
        List.filter_eq_nil_iff.mpr hnone, List.filter_eq_self.mpr (by simpa using hnone)]
      rfl

omit [DecidableEq κ] in
/-- Items of one key, followed by others that have their keys next to each other. -/
theorem Contiguous.append {key : α → κ} {k : κ} {l₁ l₂ : List α} (h : Contiguous key l₂)
    (h₁ : ∀ y ∈ l₁, key y = k) (h₂ : ∀ y ∈ l₂, key y ≠ k) : Contiguous key (l₁ ++ l₂) := by
  intro a b c hsub hac
  obtain ⟨s₁, s₂, habc, hs₁, hs₂⟩ := List.sublist_append_iff.mp hsub
  cases s₁ with
  | nil => exact h a b c (habc ▸ hs₂) hac
  | cons a' s₁ =>
    obtain ⟨rfl, hbc⟩ := List.cons.inj habc
    have ha : key a = k := h₁ a (hs₁.subset List.mem_cons_self)
    -- the third item has the key of the first, so it is not among the others
    have hc : c ∉ s₂ := fun hc => h₂ c (hs₂.subset hc) (hac.symm.trans ha)
    have hb : b ∈ s₁ := by
      cases s₁ with
      | nil =>
        have hbc : [b, c] = s₂ := hbc
        exact absurd (hbc ▸ List.mem_cons_of_mem b List.mem_cons_self) hc
      | cons b' s₁ =>
        obtain ⟨rfl, -⟩ := List.cons.inj hbc
        exact List.mem_cons_self
    exact (h₁ b (hs₁.subset (List.mem_cons_of_mem a hb))).trans ha.symm

/-- Going through the groups never meets a key again once it has left it. -/
theorem contiguous_regroup (key : α → κ) (l : List α) : Contiguous key (regroup key l) := by
  induction l using groups_induction key with
  | nil => exact fun a b c h => absurd h (by simp [regroup, groups])
  | cons x l ih =>
    rw [regroup_cons, ← List.cons_append]
    refine ih.append (k := key x) (fun y hy => ?_) fun y hy => ?_
    · rcases List.mem_cons.mp hy with rfl | hy
      · rfl
      · simpa using (List.mem_filter.mp hy).2
    · simpa using (List.mem_filter.mp ((regroup_perm key _).mem_iff.mp hy)).2

/-- The order stays exactly if the items of each key are next to each other. -/
theorem regroup_eq_iff (key : α → κ) (l : List α) : regroup key l = l ↔ Contiguous key l := by
  refine ⟨fun h => h ▸ contiguous_regroup key l, fun h => ?_⟩
  induction l using groups_induction key with
  | nil => rfl
  | cons x l ih =>
    have hsplit : l.filter (key · = key x) ++ l.filter (key · ≠ key x) = l := by
      have hpair : l.Pairwise fun a b => decide (key b = key x) = true → decide (key a = key x) = true := by
        refine List.pairwise_iff_forall_sublist.mpr fun {a b} hab hb => ?_
        simpa using h x a b (hab.cons_cons x) (by simpa using (of_decide_eq_true hb).symm)
      simpa using filter_append_of_pairwise hpair
    have hsub : (l.filter (key · ≠ key x)).Sublist (x :: l) := List.filter_sublist.trans (List.sublist_cons_self ..)
    rw [regroup_cons, ih (h.sublist hsub), hsplit]

omit [DecidableEq κ] in
/-- Only the keys matter. -/
theorem contiguous_map (key : α → κ) (l : List α) : Contiguous id (l.map key) ↔ Contiguous key l := by
  constructor
  · intro h a b c hsub
    exact h (key a) (key b) (key c) (by simpa using hsub.map key)
  · intro h a b c hsub
    obtain ⟨l', hl', habc⟩ := List.sublist_map_iff.mp hsub
    match l', habc with
    | [a', b', c'], habc =>
      simp only [List.map_cons, List.map_nil, List.cons.injEq] at habc
      obtain ⟨rfl, rfl, rfl, -⟩ := habc
      exact h a' b' c' hl'

omit [DecidableEq κ] in
theorem Contiguous.getElem {key : α → κ} {l : List α} (h : Contiguous key l) {i j k : Nat} (hij : i < j)
    (hjk : j < k) (hk : k < l.length) (hkey : key l[i] = key l[k]) : key l[j] = key l[i] := by
  refine h l[i] l[j] l[k] ?_ hkey
  have hi : l[i] ∈ l.take j := List.mem_take_iff_getElem.mpr ⟨i, by omega, rfl⟩
  have hk' : l[k] ∈ l.drop (j + 1) := List.mem_drop_iff_getElem.mpr ⟨k - (j + 1), by omega, by
    congr 1
    omega⟩
  have happ := (List.singleton_sublist.mpr hi).append ((List.singleton_sublist.mpr hk').cons_cons l[j])
  rwa [← List.drop_eq_getElem_cons, List.take_append_drop] at happ

/-- If positions are grouped that were not together, then a position of a group with more than one
member moves. -/
theorem exists_misplaced {key : Nat → κ} {n : Nat} (h : ¬ Contiguous key (List.range n)) :
    ∃ p r q, (regroup key (List.range n))[p]? = some r ∧ p ≠ r ∧ q < n ∧ q ≠ r ∧ key q = key r := by
  have hperm := regroup_perm key (List.range n)
  have hmem : ∀ {r}, r ∈ regroup key (List.range n) ↔ r < n := hperm.mem_iff.trans List.mem_range
  simp only [Contiguous, not_forall] at h
  obtain ⟨a, b, c, hsub, hac, hb⟩ := h
  have hlt := List.pairwise_lt_range.sublist hsub
  simp only [List.pairwise_cons, List.mem_cons, List.not_mem_nil, or_false, forall_eq_or_imp, forall_eq] at hlt
  obtain ⟨⟨hab, -⟩, hbc, -⟩ := hlt
  have hc : c < n := List.mem_range.mp (hsub.subset (by simp))
  have hlen : (regroup key (List.range n)).length = n := by rw [hperm.length_eq, List.length_range]
  by_contra hno
  -- otherwise every member of a larger group is where it was
  have hstay : ∀ p r, (regroup key (List.range n))[p]? = some r → key r = key a → p = r := by
    intro p r hp hr
    by_contra hne
    by_cases hra : r = a
    · exact hno ⟨p, r, c, hp, hne, hc, by omega, hac.symm.trans hr.symm⟩
    · exact hno ⟨p, r, a, hp, hne, by omega, Ne.symm hra, hr.symm⟩
  have hat : ∀ r < n, key r = key a → (regroup key (List.range n))[r]? = some r := by
    intro r hr hk
    obtain ⟨p, hp⟩ := List.getElem?_of_mem (hmem.mpr hr)
    rwa [hstay p r hp hk] at hp
  have ha' := hat a (by omega) rfl
  have hc' := hat c hc hac.symm
  rw [List.getElem?_eq_getElem (by omega), Option.some.injEq] at ha' hc'
  have hbetween := (contiguous_regroup key (List.range n)).getElem hab hbc (by omega) (by rw [ha', hc', hac])
  rw [ha'] at hbetween
  have hself := hstay b _ (List.getElem?_eq_getElem (by omega)) hbetween
  rw [← hself] at hbetween
  exact hb hbetween

end MyMalloc
