import MyMalloc.Lib.Links
import MyMalloc.Classic.Tcmalloc.Central

/- `CentralFreeList::remove_range` on the records themselves.

   The spans of a class are in two doubly linked lists, through `prev` and `next` of
   their records, and the free objects of a span in a chain through their own first
   words. `remove_range` takes objects off the spans of `nonempty` one by one, links
   them into a chain of its own, and moves a span that has none left to `empty`.

   `Shows` says which lists these words make. On records that show lists the loops do
   what `removeLoop` does on the lists (`Shows.removeRange`), and they end: each round
   of the outer loop but the last takes a span off `nonempty`, and the inner one takes
   an object of the number wanted. -/
namespace MyMalloc.Tcmalloc

/-- The fields of the span records that `remove_range` touches, the first words of the objects, and the
    heads of the two lists. Null is 0. -/
structure CentralMem where
  next : Nat → Nat
  prev : Nat → Nat
  freelist : Nat → Nat
  refcount : Nat → Nat
  node : Nat → Nat
  nonempty : Nat
  empty : Nat

/-- The chain built so far, and `removed`. -/
structure Batch where
  head : Nat
  tail : Nat
  removed : Nat

namespace CentralMem

/-- One round of the inner loop. -/
def takeOne (g : Nat) (b : Batch) (m : CentralMem) : Batch × CentralMem :=
  let obj := m.freelist g
  let m := { m with
    freelist := Function.update m.freelist g (m.node obj)
    refcount := Function.update m.refcount g ((m.refcount g + 1) % 2^32) }
  let m := if b.head = 0 then m else { m with node := Function.update m.node b.tail obj }
  (⟨if b.head = 0 then obj else b.head, obj, b.removed + 1⟩, { m with node := Function.update m.node obj 0 })

/-- The inner loop, with `want` objects to go. -/
def takeObjects (g : Nat) : Nat → Batch → CentralMem → Batch × CentralMem
  | 0, b, m => (b, m)
  | want + 1, b, m =>
    if m.freelist g = 0 then (b, m)
    else
      let r := takeOne g b m
      takeObjects g want r.1 r.2

/-- A span leaves `nonempty` and comes to the front of `empty`. -/
def moveToEmpty (g : Nat) (m : CentralMem) : CentralMem :=
  let m := if m.prev g ≠ 0 then { m with next := Function.update m.next (m.prev g) (m.next g) }
    else { m with nonempty := m.next g }
  let m := if m.next g ≠ 0 then { m with prev := Function.update m.prev (m.next g) (m.prev g) } else m
  let m := { m with prev := Function.update m.prev g 0, next := Function.update m.next g m.empty }
  let m := if m.empty ≠ 0 then { m with prev := Function.update m.prev m.empty g } else m
  { m with empty := g }

/-- The outer loop; its span is the first of `nonempty`. No result if the fuel does not suffice. -/
def removeSpans (N : Nat) : Nat → Batch → CentralMem → Option (Batch × CentralMem)
  | 0, _, _ => none
  | fuel + 1, b, m =>
    if m.nonempty = 0 ∨ N ≤ b.removed then some (b, m)
    else
      let g := m.nonempty
      let r := takeObjects g (N - b.removed) b m
      if r.2.freelist g = 0 then removeSpans N fuel r.1 (moveToEmpty g r.2) else some r

/-- `remove_range`: the head of the chain, and `*count`. -/
def removeRange (N fuel : Nat) (m : CentralMem) : Option ((Nat × Nat) × CentralMem) :=
  if m.nonempty = 0 then some ((0, 0), m)
  else (removeSpans N fuel ⟨0, 0, 0⟩ m).map fun r => ((r.1.head, r.1.removed), r.2)

end CentralMem

/-! ## What the records show -/

/-- The objects that the spans of a list have left. -/
def freeObjects (sp : Nat → Span) (gs : List Nat) : List Nat := gs.flatMap fun g => (sp g).freelist

/-- Both lists of spans are doubly linked, and have no span in common. -/
structure CentralMem.Linked (m : CentralMem) (ne em : List Nat) : Prop where
  nonempty : Chain 0 m.next m.nonempty ne
  nonemptyBack : Back m.prev 0 ne
  empty : Chain 0 m.next m.empty em
  emptyBack : Back m.prev 0 em
  apart : ∀ g ∈ ne, g ∉ em

/-- The records show the lists `l`: the lists of spans are linked, the free objects of the spans of
    `nonempty` are in chains, and no object is in two of them. -/
structure Shows (m : CentralMem) (l : Lists) : Prop where
  linked : m.Linked l.central.nonempty l.central.empty
  free : ∀ g ∈ l.central.nonempty, Chain 0 m.node (m.freelist g) (l.span g).freelist
  refcount : ∀ g ∈ l.central.nonempty ++ l.central.empty, m.refcount g = (l.span g).refcount ∧ m.refcount g < 2^32
  once : (freeObjects l.span l.central.nonempty).Nodup

/-- The batch is a chain of the objects in `done`. -/
structure Batch.Holds (b : Batch) (m : CentralMem) (done : List Nat) : Prop where
  chain : Chain 0 m.node b.head done
  tail : done ≠ [] → done.getLast? = some b.tail
  removed : b.removed = done.length

/-! ## The inner loop -/

section take
variable {g : Nat} {b : Batch} {m : CentralMem} {done objs : List Nat}

/-- What taking the first objects off a span leaves: `taken` is linked to the batch, and `left` is the
    span's free list. -/
structure Took (g : Nat) (m : CentralMem) (done taken left : List Nat) (r : Batch × CentralMem) : Prop where
  batch : r.1.Holds r.2 (done ++ taken)
  left : Chain 0 r.2.node (r.2.freelist g) left
  node : ∀ x, x ∉ done → x ∉ taken → r.2.node x = m.node x
  refcount : r.2.refcount = Function.update m.refcount g ((m.refcount g + taken.length) % 2^32)
  freelist : ∀ g', g' ≠ g → r.2.freelist g' = m.freelist g'
  links : r.2.next = m.next ∧ r.2.prev = m.prev ∧ r.2.nonempty = m.nonempty ∧ r.2.empty = m.empty

theorem Batch.Holds.head_eq_zero (h : b.Holds m done) : b.head = 0 ↔ done = [] := h.chain.eq_nil_iff.symm

theorem takeOne_took {obj : Nat} (h : b.Holds m done) (hfree : Chain 0 m.node (m.freelist g) (obj :: objs))
    (hnd : (done ++ obj :: objs).Nodup) : Took g m done [obj] objs (m.takeOne g b) := by
  obtain ⟨hobj, hne, hrest⟩ := hfree
  obtain ⟨hnd₁, hnd₂, hap⟩ := List.nodup_append.mp hnd
  have hout : obj ∉ done := fun hm => hap obj hm obj List.mem_cons_self rfl
  have hobjs := (List.nodup_cons.mp hnd₂).1
  rcases List.eq_nil_or_concat done with rfl | ⟨front, last, rfl⟩
  · -- the first object of the chain
    have h0 : b.head = 0 := h.head_eq_zero.mpr rfl
    unfold CentralMem.takeOne
    dsimp only
    rw [if_pos h0, if_pos h0, hobj]
    refine ⟨⟨⟨rfl, hne, Function.update_self ..⟩, fun _ => rfl, ?_⟩, ?_, fun x _ hx => ?_, rfl,
      fun g' hg' => Function.update_of_ne hg' .., rfl, rfl, rfl, rfl⟩
    · dsimp only
      rw [h.removed]
      rfl
    · dsimp only
      rw [Function.update_self]
      exact hrest.update hobjs
    · exact Function.update_of_ne (fun e => hx (by simp [e])) ..
  · rw [List.concat_eq_append] at *
    have h0 : b.head ≠ 0 := fun e => by simpa using h.head_eq_zero.mp e
    have htail : b.tail = last := by
      have := h.tail (by simp)
      rw [List.getLast?_concat] at this
      exact (Option.some.inj this).symm
    have hlast : last ≠ obj := fun e => hout (by simp [e])
    unfold CentralMem.takeOne
    dsimp only
    rw [if_neg h0, if_neg h0, hobj, htail]
    have hnode : ∀ x, x ≠ last → x ≠ obj →
        Function.update (Function.update m.node last obj) obj 0 x = m.node x := fun x h1 h2 => by
      rw [Function.update_of_ne h2, Function.update_of_ne h1]
    refine ⟨⟨?_, fun _ => ?_, ?_⟩, ?_, fun x hx hx' => ?_, rfl, fun g' hg' => Function.update_of_ne hg' .., rfl, rfl,
      rfl, rfl⟩
    · -- the last object of the chain points to the new one, which ends it
      have hapart := h.chain.apart
      rw [List.append_assoc, List.singleton_append]
      refine h.chain.relink (fun x hx => hnode x ?_ ?_) ?_
      · exact fun e => hapart.1 (e ▸ hx)
      · exact fun e => hout (e ▸ List.mem_append_left _ hx)
      · dsimp only
        rw [Function.update_of_ne hlast, Function.update_self]
        exact ⟨rfl, hne, Function.update_self ..⟩
    · exact List.getLast?_concat ..
    · dsimp only
      rw [h.removed]
      simp
    · dsimp only
      rw [Function.update_self]
      refine hrest.congr fun x hx => hnode x ?_ ?_
      · exact fun e => hap last (by simp) x (List.mem_cons_of_mem _ hx) e.symm
      · exact fun e => hobjs (e ▸ hx)
    · exact hnode x (fun e => hx (by simp [e])) (fun e => hx' (by simp [e]))

theorem Took.nothing (h : b.Holds m done) (hfree : Chain 0 m.node (m.freelist g) objs) (href : m.refcount g < 2^32) :
    Took g m done [] objs (b, m) := by
  refine ⟨by rw [List.append_nil]; exact h, hfree, fun _ _ _ => rfl, ?_, fun _ _ => rfl, rfl, rfl, rfl, rfl⟩
  rw [List.length_nil, Nat.add_zero, Nat.mod_eq_of_lt href, Function.update_eq_self]

theorem takeObjects_took (want : Nat) (h : b.Holds m done) (hfree : Chain 0 m.node (m.freelist g) objs)
    (hnd : (done ++ objs).Nodup) (href : m.refcount g < 2^32) :
    Took g m done (objs.take want) (objs.drop want) (m.takeObjects g want b) := by
  induction want generalizing b m done objs with
  | zero => exact .nothing h hfree href
  | succ want ih =>
    cases objs with
    | nil =>
      have h0 : m.freelist g = 0 := hfree
      rw [CentralMem.takeObjects, if_pos h0]
      exact .nothing h hfree href
    | cons obj objs =>
      have h0 : m.freelist g ≠ 0 := by
        rw [hfree.1]
        exact hfree.2.1
      have hone := takeOne_took h hfree hnd
      have hnd' : (done ++ [obj] ++ objs).Nodup := by
        rw [List.append_assoc]
        exact hnd
      have href' : (m.takeOne g b).2.refcount g < 2^32 := by
        rw [hone.refcount, Function.update_self]
        exact Nat.mod_lt _ (by decide)
      have hrest := ih hone.batch hone.left hnd' href'
      rw [CentralMem.takeObjects, if_neg h0]
      dsimp only
      refine ⟨?_, hrest.left, fun x hx hx' => ?_, ?_, fun g' hg' => ?_, ?_, ?_, ?_, ?_⟩
      · have := hrest.batch
        rw [List.append_assoc] at this
        exact this
      · rw [List.take_succ_cons, List.mem_cons] at hx'
        rw [hrest.node x (by simp [hx]; exact fun e => hx' (.inl e)) (fun hm => hx' (.inr hm)),
          hone.node x hx (by simp; exact fun e => hx' (.inl e))]
      · rw [hrest.refcount, hone.refcount, Function.update_idem, Function.update_self, List.take_succ_cons,
          List.length_singleton, List.length_cons, Nat.mod_add_mod, Nat.add_assoc, Nat.add_comm 1]
      · rw [hrest.freelist g' hg', hone.freelist g' hg']
      · exact hrest.links.1.trans hone.links.1
      · exact hrest.links.2.1.trans hone.links.2.1
      · exact hrest.links.2.2.1.trans hone.links.2.2.1
      · exact hrest.links.2.2.2.trans hone.links.2.2.2

end take

/-! ## The outer loop -/

section move
variable {m : CentralMem} {g : Nat} {rest em : List Nat}

/-- The backward links once the span behind `g` is the first of `nonempty`. -/
def unlinkedPrev (g : Nat) (m : CentralMem) : Nat → Nat :=
  if m.next g = 0 then m.prev else Function.update m.prev (m.next g) 0

theorem moveToEmpty_first (hprev : m.prev g = 0) : m.moveToEmpty g = { m with
    nonempty := m.next g
    next := Function.update m.next g m.empty
    prev := if m.empty = 0 then Function.update (unlinkedPrev g m) g 0
      else Function.update (Function.update (unlinkedPrev g m) g 0) m.empty g
    empty := g } := by
  unfold CentralMem.moveToEmpty unlinkedPrev
  rw [hprev]
  by_cases h1 : m.next g = 0 <;> by_cases h2 : m.empty = 0 <;> simp [h1, h2, hprev]

theorem CentralMem.Linked.moveToEmpty (h : m.Linked (g :: rest) em) : (m.moveToEmpty g).Linked rest (g :: em) := by
  obtain ⟨hg, hg0, hrest⟩ := h.nonempty
  obtain ⟨hprev, hback⟩ := h.nonemptyBack
  obtain ⟨hgr, hnd⟩ := List.nodup_cons.mp h.nonempty.nodup
  have hge : g ∉ em := h.apart g List.mem_cons_self
  have hapart : ∀ x ∈ rest, x ∉ em := fun x hx => h.apart x (List.mem_cons_of_mem _ hx)
  have hrest₀ : Back (unlinkedPrev g m) 0 rest := by
    cases rest with
    | nil => trivial
    | cons a rest =>
      obtain ⟨ha, ha0, -⟩ := hrest
      rw [unlinkedPrev, ha, if_neg ha0]
      exact ⟨Function.update_self .., hback.2.update (List.nodup_cons.mp hnd).1⟩
  have hem₀ : Back (unlinkedPrev g m) 0 em := by
    unfold unlinkedPrev
    split
    · exact h.emptyBack
    · next hne =>
      obtain ⟨l, hl, -⟩ := hrest.exists_cons hne
      exact h.emptyBack.update (hapart _ (hl ▸ List.mem_cons_self))
  have hhead : m.empty ≠ 0 → m.empty ∈ em := fun hne => by
    obtain ⟨l, hl, -⟩ := h.empty.exists_cons hne
    exact hl ▸ List.mem_cons_self
  rw [moveToEmpty_first hprev]
  refine ⟨hrest.update hgr, ?_, h.empty.push hg0 hge, hem₀.push h.empty hge, fun x hx hm => ?_⟩
  · dsimp only
    split
    · exact hrest₀.update hgr
    · next hne => exact (hrest₀.update hgr).update fun hm => hapart _ hm (hhead hne)
  · rcases List.mem_cons.mp hm with rfl | hm
    · exact hgr hx
    · exact hapart x hx hm

theorem moveToEmpty_objects (hprev : m.prev g = 0) : (m.moveToEmpty g).node = m.node ∧
    (m.moveToEmpty g).freelist = m.freelist ∧ (m.moveToEmpty g).refcount = m.refcount := by
  rw [moveToEmpty_first hprev]
  exact ⟨rfl, rfl, rfl⟩

end move

section loop
variable {b : Batch} {m : CentralMem} {g : Nat} {rest em done : List Nat} {sp : Nat → Span}

/-- The span records after `want` objects of `g` were taken. -/
def takenFrom (g want : Nat) (sp : Nat → Span) : Nat → Span :=
  Function.update sp g { sp g with
    freelist := (sp g).freelist.drop want
    refcount := ((sp g).refcount + ((sp g).freelist.take want).length) % 2^32 }

theorem removeLoop_drained {want : Nat} (hw : want ≠ 0) (hleft : (sp g).freelist.drop want = []) :
    removeLoop want (g :: rest) em sp = ((sp g).freelist.take want ++
      (removeLoop (want - ((sp g).freelist.take want).length) rest (g :: em) (takenFrom g want sp)).1,
      (removeLoop (want - ((sp g).freelist.take want).length) rest (g :: em) (takenFrom g want sp)).2) := by
  rw [removeLoop, if_neg hw]
  exact if_pos hleft

theorem removeLoop_left {want : Nat} (hw : want ≠ 0) (hleft : (sp g).freelist.drop want ≠ []) :
    removeLoop want (g :: rest) em sp =
      ((sp g).freelist.take want, ⟨takenFrom g want sp, ⟨g :: rest, em⟩⟩) := by
  rw [removeLoop, if_neg hw]
  exact if_neg hleft

theorem freeObjects_takenFrom (want : Nat) (hg : g ∉ rest) :
    freeObjects (takenFrom g want sp) (g :: rest) = (sp g).freelist.drop want ++ freeObjects sp rest ∧
      freeObjects (takenFrom g want sp) rest = freeObjects sp rest := by
  have hrest : freeObjects (takenFrom g want sp) rest = freeObjects sp rest := by
    unfold freeObjects
    rw [List.flatMap_def, List.flatMap_def, List.map_congr_left fun x hx => by
      rw [takenFrom, Function.update_of_ne (ne_of_mem_of_not_mem hx hg)]]
  refine ⟨?_, hrest⟩
  rw [← hrest]
  unfold freeObjects
  rw [List.flatMap_cons, takenFrom, Function.update_self]

theorem Shows.took (h : Shows m ⟨sp, ⟨g :: rest, em⟩⟩) {want : Nat} {r : Batch × CentralMem}
    (ht : Took g m done ((sp g).freelist.take want) ((sp g).freelist.drop want) r)
    (hdone : (done ++ freeObjects sp (g :: rest)).Nodup) :
    Shows r.2 ⟨takenFrom g want sp, ⟨g :: rest, em⟩⟩ ∧
      (done ++ (sp g).freelist.take want ++ freeObjects (takenFrom g want sp) (g :: rest)).Nodup := by
  obtain ⟨hnext, hprev, hne, hem⟩ := ht.links
  obtain ⟨hgr, -⟩ := List.nodup_cons.mp h.linked.nonempty.nodup
  have hall : done ++ (sp g).freelist.take want ++ freeObjects (takenFrom g want sp) (g :: rest) =
      done ++ freeObjects sp (g :: rest) := by
    rw [(freeObjects_takenFrom want hgr).1, List.append_assoc, ← List.append_assoc _ _ (freeObjects sp rest),
      List.take_append_drop]
    rfl
  have hnd := hall ▸ hdone
  have hapart : (done ++ ((sp g).freelist ++ freeObjects sp rest)).Nodup := hdone
  have hapart := List.nodup_append.mp hapart
  refine ⟨⟨⟨?_, ?_, ?_, ?_, h.linked.apart⟩, fun x hx => ?_, fun x hx => ?_, ?_⟩, hnd⟩
  · rw [hnext, hne]
    exact h.linked.nonempty
  · rw [hprev]
    exact h.linked.nonemptyBack
  · rw [hnext, hem]
    exact h.linked.empty
  · rw [hprev]
    exact h.linked.emptyBack
  · unfold takenFrom
    dsimp only
    rcases eq_or_ne x g with e | e
    · rw [e, Function.update_self]
      exact ht.left
    · -- the objects of another span are neither in the batch nor taken
      rw [Function.update_of_ne e, ht.freelist x e]
      have hxr : x ∈ rest := (List.mem_cons.mp hx).resolve_left e
      refine (h.free x hx).congr fun o ho => ht.node o ?_ ?_
      · exact fun hm => hapart.2.2 o hm o (List.mem_append_right _ (List.mem_flatMap.mpr ⟨x, hxr, ho⟩)) rfl
      · exact fun hm => (List.nodup_append.mp hapart.2.1).2.2 o (List.mem_of_mem_take hm) o
          (List.mem_flatMap.mpr ⟨x, hxr, ho⟩) rfl
  · obtain ⟨hx1, hx2⟩ := h.refcount x hx
    unfold takenFrom
    dsimp only at hx1 ⊢
    rw [ht.refcount]
    rcases eq_or_ne x g with e | e
    · subst e
      rw [Function.update_self, Function.update_self, hx1]
      exact ⟨rfl, Nat.mod_lt _ (by decide)⟩
    · rw [Function.update_of_ne e, Function.update_of_ne e]
      exact ⟨hx1, hx2⟩
  · exact (List.nodup_append.mp hnd).2.1

theorem Shows.moveToEmpty (h : Shows m ⟨sp, ⟨g :: rest, em⟩⟩) : Shows (m.moveToEmpty g) ⟨sp, ⟨rest, g :: em⟩⟩ := by
  obtain ⟨hnode, hfreelist, hrefcount⟩ := moveToEmpty_objects h.linked.nonemptyBack.1
  have hmem : ∀ x, x ∈ rest ++ g :: em → x ∈ g :: rest ++ em := fun x hx => by
    rw [List.mem_append, List.mem_cons] at hx
    rw [List.cons_append, List.mem_cons, List.mem_append]
    tauto
  refine ⟨h.linked.moveToEmpty, fun x hx => ?_, fun x hx => ?_, ?_⟩
  · rw [hnode, hfreelist]
    exact h.free x (List.mem_cons_of_mem _ hx)
  · rw [hrefcount]
    exact h.refcount x (hmem x hx)
  · exact (List.nodup_append.mp h.once).2.1

/-- The outer loop does what `removeLoop` does on the lists. Each round but the last takes a span off
    `nonempty`, so it ends. -/
theorem Shows.removeSpans {N fuel : Nat} {gs : List Nat} (h : Shows m ⟨sp, ⟨gs, em⟩⟩) (hb : b.Holds m done)
    (hdone : (done ++ freeObjects sp gs).Nodup) (hfuel : gs.length < fuel) :
    ∃ r, m.removeSpans N fuel b = some r ∧ r.1.Holds r.2 (done ++ (removeLoop (N - done.length) gs em sp).1) ∧
      Shows r.2 (removeLoop (N - done.length) gs em sp).2 ∧
      (done ++ (removeLoop (N - done.length) gs em sp).1).Nodup := by
  induction gs generalizing b m done em sp fuel with
  | nil =>
    obtain ⟨fuel, rfl⟩ : ∃ n, fuel = n + 1 := ⟨fuel - 1, by omega⟩
    rw [CentralMem.removeSpans, if_pos (.inl h.linked.nonempty), removeLoop, List.append_nil]
    exact ⟨_, rfl, hb, h, (List.nodup_append.mp hdone).1⟩
  | cons g rest ih =>
    obtain ⟨fuel, rfl⟩ : ∃ n, fuel = n + 1 := ⟨fuel - 1, by omega⟩
    obtain ⟨hg, hg0, -⟩ := h.linked.nonempty
    by_cases hwant : N ≤ done.length
    · -- nothing is wanted any more
      rw [CentralMem.removeSpans, if_pos (.inr (hb.removed ▸ hwant)), removeLoop,
        if_pos (Nat.sub_eq_zero_of_le hwant), List.append_nil]
      exact ⟨_, rfl, hb, h, (List.nodup_append.mp hdone).1⟩
    · have hw : N - done.length ≠ 0 := by omega
      have hgo : ¬ (m.nonempty = 0 ∨ N ≤ b.removed) := by
        rw [hg, hb.removed]
        exact fun e => e.elim hg0 hwant
      have htook := takeObjects_took (N - done.length) hb (h.free g List.mem_cons_self)
        (hdone.sublist (by
          rw [freeObjects, List.flatMap_cons]
          exact (List.sublist_append_left _ _).append_left _)) (h.refcount g (by simp)).2
      obtain ⟨hshows, hnd⟩ := h.took htook hdone
      have hdrained := htook.left.eq_nil_iff
      rw [CentralMem.removeSpans, if_neg hgo, hg, hb.removed]
      dsimp only
      by_cases hleft : (sp g).freelist.drop (N - done.length) = []
      · -- the span is drained: the rest of the request goes to the next span
        have hmoved := hshows.moveToEmpty
        have hnode := (moveToEmpty_objects hshows.linked.nonemptyBack.1).1
        have hbatch := htook.batch
        have hnd' : (done ++ (sp g).freelist.take (N - done.length) ++
            freeObjects (takenFrom g (N - done.length) sp) rest).Nodup :=
          hnd.sublist (List.Sublist.append_left (List.sublist_append_right _ _) _)
        have hlen : rest.length < fuel := Nat.lt_of_succ_lt_succ hfuel
        have hrec := ih hmoved ⟨by rw [hnode]; exact hbatch.chain, hbatch.tail, hbatch.removed⟩ hnd' hlen
        rw [if_pos (hdrained.mp hleft), removeLoop_drained hw hleft]
        rw [List.length_append, ← Nat.sub_sub, List.append_assoc] at hrec
        exact hrec
      · rw [if_neg (fun e => hleft (hdrained.mpr e)), removeLoop_left hw hleft]
        exact ⟨_, rfl, htook.batch, hshows, (List.nodup_append.mp hnd).1⟩

end loop

/-! ## What is delivered -/

/-- `taken` are the objects that each span gives, from the front of its free list, and `moved` the spans
    that come to `empty`: those the loop visits, with objects still wanted, and leaves without objects. -/
structure Delivered (N : Nat) (l : Lists) (objs : List Nat) (l' : Lists) (taken : Nat → List Nat)
    (moved : List Nat) : Prop where
  objects : objs = l.central.nonempty.flatMap taken
  free : ∀ g ∈ l.central.nonempty, (l.span g).freelist = taken g ++ (l'.span g).freelist
  refcount : ∀ g ∈ l.central.nonempty, (l'.span g).refcount = ((l.span g).refcount + (taken g).length) % 2^32
  nonempty : l.central.nonempty = moved ++ l'.central.nonempty
  empty : l'.central.empty = moved.reverse ++ l.central.empty
  moved_iff : ∀ before g after, l.central.nonempty = before ++ g :: after →
    (g ∈ moved ↔ freeCount l.span before < N ∧ (l'.span g).freelist = [])
  others : ∀ g, g ∉ l.central.nonempty → l'.span g = l.span g

section deliver
variable {g want : Nat} {rest gs em : List Nat} {sp : Nat → Span}

theorem takenFrom_of_ne {x : Nat} (h : x ≠ g) : takenFrom g want sp x = sp x := Function.update_of_ne h ..

theorem takenFrom_self : takenFrom g want sp g = { sp g with
    freelist := (sp g).freelist.drop want
    refcount := ((sp g).refcount + ((sp g).freelist.take want).length) % 2^32 } := Function.update_self ..

theorem Delivered.nothing (hword : ∀ g ∈ gs, (sp g).refcount < 2^32) (hstop : want = 0 ∨ gs = []) :
    Delivered want ⟨sp, ⟨gs, em⟩⟩ [] ⟨sp, ⟨gs, em⟩⟩ (fun _ => []) [] := by
  refine ⟨by simp, fun _ _ => rfl, fun g hg => ?_, rfl, rfl, fun before g after hsplit => ?_, fun _ _ => rfl⟩
  · exact (Nat.mod_eq_of_lt (hword g hg)).symm
  · rcases hstop with h0 | h0
    · subst h0
      simp
    · rw [h0] at hsplit
      simp at hsplit

theorem Delivered.stop (hword : ∀ x ∈ g :: rest, (sp x).refcount < 2^32) (hg : g ∉ rest)
    (hleft : (sp g).freelist.drop want ≠ []) :
    Delivered want ⟨sp, ⟨g :: rest, em⟩⟩ ((sp g).freelist.take want) ⟨takenFrom g want sp, ⟨g :: rest, em⟩⟩
      (Function.update (fun _ => []) g ((sp g).freelist.take want)) [] := by
  have hlen : want < (sp g).freelist.length := by simpa using hleft
  refine ⟨?_, fun x hx => ?_, fun x hx => ?_, rfl, rfl, fun before x after hsplit => ?_, fun x hx => ?_⟩
  · have hrest : rest.flatMap (Function.update (fun _ => []) g ((sp g).freelist.take want)) = [] := by
      refine List.flatMap_eq_nil_iff.mpr fun x hx => ?_
      rw [Function.update_of_ne (ne_of_mem_of_not_mem hx hg)]
    rw [List.flatMap_cons, hrest, Function.update_self, List.append_nil]
  · dsimp only
    rcases eq_or_ne x g with e | e
    · rw [e, Function.update_self, takenFrom_self, List.take_append_drop]
    · rw [Function.update_of_ne e, takenFrom_of_ne e]
      rfl
  · dsimp only
    rcases eq_or_ne x g with e | e
    · rw [e, Function.update_self, takenFrom_self]
    · rw [Function.update_of_ne e, takenFrom_of_ne e]
      exact (Nat.mod_eq_of_lt (hword x hx)).symm
  · -- the spans behind the first are not visited
    refine ⟨nofun, fun ⟨hvisited, hempty⟩ => ?_⟩
    cases before with
    | nil =>
      obtain ⟨rfl, -⟩ := List.cons.inj hsplit
      dsimp only at hempty
      rw [takenFrom_self] at hempty
      exact absurd hempty hleft
    | cons y before =>
      obtain ⟨rfl, -⟩ := List.cons.inj hsplit
      rw [freeCount_cons] at hvisited
      dsimp only at hvisited
      omega
  · exact takenFrom_of_ne fun e => hx (e ▸ List.mem_cons_self)

theorem Delivered.cons {objs moved : List Nat} {l' : Lists} {taken : Nat → List Nat} (hw : want ≠ 0) (hg : g ∉ rest)
    (hleft : (sp g).freelist.drop want = [])
    (h : Delivered (want - ((sp g).freelist.take want).length) ⟨takenFrom g want sp, ⟨rest, g :: em⟩⟩ objs l' taken
      moved) :
    Delivered want ⟨sp, ⟨g :: rest, em⟩⟩ ((sp g).freelist.take want ++ objs) l'
      (Function.update taken g ((sp g).freelist.take want)) (g :: moved) := by
  have hlen : (sp g).freelist.length ≤ want := by simpa using hleft
  have hne : ∀ x ∈ rest, x ≠ g := fun x hx => ne_of_mem_of_not_mem hx hg
  have hspan : l'.span g = takenFrom g want sp g := h.others g hg
  refine ⟨?_, fun x hx => ?_, fun x hx => ?_, ?_, ?_, fun before x after hsplit => ?_, fun x hx => ?_⟩
  · rw [List.flatMap_cons, Function.update_self, h.objects, List.flatMap_def, List.flatMap_def,
      List.map_congr_left fun x hx => (Function.update_of_ne (hne x hx) _ _).symm]
  · dsimp only
    rcases List.mem_cons.mp hx with rfl | hx
    · rw [Function.update_self, hspan, takenFrom_self, List.take_append_drop]
    · have hrest := h.free x hx
      dsimp only at hrest
      rw [takenFrom_of_ne (hne x hx)] at hrest
      rw [Function.update_of_ne (hne x hx), hrest]
  · dsimp only
    rcases List.mem_cons.mp hx with rfl | hx
    · rw [Function.update_self, hspan, takenFrom_self]
    · have hrest := h.refcount x hx
      dsimp only at hrest
      rw [takenFrom_of_ne (hne x hx)] at hrest
      rw [Function.update_of_ne (hne x hx), hrest]
  · rw [List.cons_append, ← h.nonempty]
  · rw [h.empty]
    simp
  · cases before with
    | nil =>
      obtain ⟨rfl, -⟩ := List.cons.inj hsplit
      refine ⟨fun _ => ⟨Nat.pos_of_ne_zero hw, ?_⟩, fun _ => List.mem_cons_self⟩
      rw [hspan, takenFrom_self]
      exact hleft
    | cons y before =>
      obtain ⟨rfl, hs⟩ := List.cons.inj hsplit
      have hs : rest = before ++ x :: after := hs
      have hx : x ∈ rest := by simp [hs]
      have hbefore : g ∉ before := fun hm => hg (by simp [hs, hm])
      have hcount : freeCount (takenFrom g want sp) before = freeCount sp before := freeCount_update hbefore
      rw [List.mem_cons, freeCount_cons, or_iff_right (hne x hx), h.moved_iff before x after hs]
      dsimp only
      rw [hcount, List.length_take]
      refine and_congr_left fun _ => ?_
      omega
  · rw [List.mem_cons, not_or] at hx
    rw [h.others x hx.2]
    exact takenFrom_of_ne hx.1

theorem removeLoop_delivered (want : Nat) (em : List Nat) (hnd : gs.Nodup)
    (hword : ∀ g ∈ gs, (sp g).refcount < 2^32) :
    ∃ taken moved, Delivered want ⟨sp, ⟨gs, em⟩⟩ (removeLoop want gs em sp).1 (removeLoop want gs em sp).2 taken
      moved := by
  induction gs generalizing want em sp with
  | nil => exact ⟨_, _, .nothing hword (.inr rfl)⟩
  | cons g rest ih =>
    obtain ⟨hg, hrest⟩ := List.nodup_cons.mp hnd
    by_cases hw : want = 0
    · rw [removeLoop, if_pos hw]
      exact ⟨_, _, .nothing hword (.inl hw)⟩
    · by_cases hleft : (sp g).freelist.drop want = []
      · have hword' : ∀ x ∈ rest, (takenFrom g want sp x).refcount < 2^32 := fun x hx => by
          rw [takenFrom_of_ne (ne_of_mem_of_not_mem hx hg)]
          exact hword x (List.mem_cons_of_mem _ hx)
        obtain ⟨taken, moved, h⟩ := ih _ _ hrest hword'
        rw [removeLoop_drained hw hleft]
        exact ⟨_, _, h.cons hw hg hleft⟩
      · rw [removeLoop_left hw hleft]
        exact ⟨_, _, .stop hword hg hleft⟩

end deliver

/-- `remove_range` ends, and delivers exactly what is there, up to `N` objects. -/
theorem remove_range_exact {m : CentralMem} {l : Lists} (h : Shows m l) (N : Nat) :
    ∃ rounds, ∀ fuel, rounds ≤ fuel → ∃ head m' objs l' taken moved,
      m.removeRange N fuel = some ((head, objs.length), m') ∧ objs.length = min N (deliverable l) ∧
        Chain 0 m'.node head objs ∧ objs.Nodup ∧ Delivered N l objs l' taken moved ∧ Shows m' l' := by
  obtain ⟨sp, ⟨ne, em⟩⟩ := l
  refine ⟨ne.length + 1, fun fuel hfuel => ?_⟩
  have hnd := h.linked.nonempty.nodup
  have hword : ∀ g ∈ ne, (sp g).refcount < 2^32 := fun g hg => by
    obtain ⟨e, hlt⟩ := h.refcount g (List.mem_append_left _ hg)
    exact e ▸ hlt
  obtain ⟨taken, moved, hdelivered⟩ := removeLoop_delivered N em hnd hword
  have hcount := (removeLoop_count N ne em sp hnd).1
  have hrun : ∃ head m', m.removeRange N fuel =
        some ((head, (removeLoop N ne em sp).1.length), m') ∧
      Chain 0 m'.node head (removeLoop N ne em sp).1 ∧
      (removeLoop N ne em sp).1.Nodup ∧
      Shows m' (removeLoop N ne em sp).2 := by
    unfold CentralMem.removeRange
    by_cases h0 : m.nonempty = 0
    · have hnil : ne = [] := h.linked.nonempty.eq_nil_iff.mpr h0
      subst hnil
      rw [if_pos h0, removeLoop]
      exact ⟨0, m, rfl, rfl, List.nodup_nil, h⟩
    · have hstart : Batch.Holds ⟨0, 0, 0⟩ m [] := ⟨rfl, fun hne => absurd rfl hne, rfl⟩
      obtain ⟨r, hr, hholds, hshows, hdistinct⟩ := h.removeSpans (N := N) hstart h.once hfuel
      rw [if_neg h0, hr]
      refine ⟨r.1.head, r.2, ?_, hholds.chain, hdistinct, hshows⟩
      rw [Option.map_some, hholds.removed]
      rfl
  obtain ⟨head, m', hr, hchain, hdistinct, hshows⟩ := hrun
  exact ⟨head, m', _, _, taken, moved, hr, hcount, hchain, hdistinct, hdelivered, hshows⟩

/-- Two spans in `nonempty`, with two objects and with none. -/
def twoSpans : CentralMem where
  next := fun g => if g = 1 then 2 else 0
  prev := fun g => if g = 2 then 1 else 0
  freelist := fun g => if g = 1 then 8192 else 0
  refcount := fun _ => 3
  node := fun a => if a = 8192 then 8256 else 0
  nonempty := 1
  empty := 0

def twoSpanLists : Lists where
  span := fun g => { zeroSpan with freelist := if g = 1 then [8192, 8256] else [], refcount := 3 }
  central := ⟨[1, 2], []⟩

theorem shows_twoSpans : Shows twoSpans twoSpanLists where
  linked := ⟨⟨rfl, by decide, rfl, by decide, rfl⟩, ⟨rfl, rfl, trivial⟩, rfl, trivial, by simp [twoSpanLists]⟩
  free := by
    intro g hg
    rcases List.mem_cons.mp hg with rfl | hg
    · exact ⟨rfl, by decide, rfl, by decide, rfl⟩
    · rw [List.mem_singleton.mp hg]
      exact rfl
  refcount := fun _ _ => ⟨rfl, by show 3 < 2^32; decide⟩
  once := by decide

/-- All is taken, and both spans are moved. -/
theorem remove_range_exact_two :
    (twoSpans.removeRange 5 3).map (fun r => (r.1, r.2.nonempty, r.2.empty)) = some ((8192, 2), 0, 2) ∧
      ∃ rounds, ∀ fuel, rounds ≤ fuel → ∃ head m' objs l' taken moved,
        twoSpans.removeRange 5 fuel = some ((head, objs.length), m') ∧
          objs.length = min 5 (deliverable twoSpanLists) ∧ Chain 0 m'.node head objs ∧ objs.Nodup ∧
          Delivered 5 twoSpanLists objs l' taken moved ∧ Shows m' l' :=
  ⟨by decide, remove_range_exact shows_twoSpans 5⟩

end MyMalloc.Tcmalloc
