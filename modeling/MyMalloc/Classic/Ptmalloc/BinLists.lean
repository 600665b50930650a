import MyMalloc.Classic.Ptmalloc.Binmap

/- The bins of an arena with the map of the bins that are not empty (`bins.cpp`).

   The lists are what `FreeLists` says; here every call on them is followed through a
   whole run, together with the map. The one that fails is `alloc_split`: if no large
   bin has a chunk that fits, it reads the bin behind the array (`alloc_split_faults`).
   In every run without such a call, and without the unused bin 0, the lists are those
   of the calls (`bin_lists_faithful`). -/
namespace MyMalloc.Ptmalloc.Words

open Exec

variable {τ : Type}

/-! ## The calls -/

/-- The memory and the map. -/
structure Bins (τ : Type) where
  state : State τ
  binmap : Binmap

def onState {α : Type} (x : Exec (State τ) α) : Exec (Bins τ) α := fun b =>
  (x b.state).map fun r => (r.1, { b with state := r.2 })

def mark (i : Nat) : Exec (Bins τ) Unit := modify fun b => { b with binmap := markBin b.binmap i }

/-- The bin in the array. -/
def binAt (k i : Nat) : Exec (Bins τ) Nat := onState (gets fun s => sentinel (s.arena k).base i)

/-- `unmark_bin`. -/
def unmark (k i : Nat) : Exec (Bins τ) Unit := do
  if i < nBins then
    let snt ← binAt k i
    if ← onState (binEmpty snt) then modify fun b => { b with binmap := clearBin b.binmap i }

def unmarkEmpty (k i : Nat) : Exec (Bins τ) Unit := do
  let snt ← binAt k i
  if ← onState (binEmpty snt) then unmark k i

/-- `alloc_split` over the bins of a list; the map is not read in between, so that it can be written at the end. -/
def splitMarked (k nb : Nat) : List Nat → Exec (Bins τ) (Option (Nat × Option Nat))
  | [] => pure none
  | li :: l => do
    match ← onState (splitFrom k nb li) with
    | none => splitMarked k nb l
    | some (victim, rest) =>
      unmarkEmpty k (unsortedBinIdx + 1 + nSmallbins + li)
      if rest.isSome then mark unsortedBinIdx
      pure (some (victim, rest))

def unmarkAt (k : Nat) : Option Place → Exec (Bins τ) Unit
  | some (.bin i) => unmark k i
  | _ => pure ()

inductive BinCall where
  | fastPush (i p : Nat)
  | fastPopAll (i : Nat)
  | pushFront (i p : Nat)
  | pushBack (i p : Nat)
  | unlink (p : Nat)
  | popFront (i : Nat)
  | alloc (idx : Nat)
  | allocSplit (nb : Nat)
  | unlinkFree (p : Nat)

/-- Null is `none`. -/
inductive BinAnswer where
  | done
  | chunk (p : Option Nat)
  | split (r : Option (Nat × Option Nat))
  | found (b : Bool)

/-- A call on the bins of arena `k`; a chunk that is pushed to a bin marks it. -/
def BinCall.exec (k : Nat) : BinCall → Exec (Bins τ) BinAnswer
  | .fastPush i p => do
    onState (Words.fastPush k i p)
    pure .done
  | .fastPopAll i => do
    let head ← onState (Words.fastPopAll k i)
    pure (.chunk (if head = 0 then none else some head))
  | .pushFront i p => do
    let snt ← binAt k i
    onState (Words.pushFront snt p)
    mark i
    pure .done
  | .pushBack i p => do
    let snt ← binAt k i
    onState (Words.pushBack snt p)
    mark i
    pure .done
  | .unlink p => do
    onState (Words.unlink p)
    pure .done
  | .popFront i => do
    let snt ← binAt k i
    let p ← onState (Words.popFront snt)
    pure (.chunk p)
  | .alloc idx => do
    let p ← onState (smallbinAlloc k idx)
    if p.isSome then unmark k (unsortedBinIdx + 1 + idx)
    pure (.chunk p)
  | .allocSplit nb => do
    let r ← splitMarked k nb (LargeBins.candidates nb)
    pure (.split r)
  | .unlinkFree p => do
    let place ← onState (findFree k p)
    let found ← onState (unlinkFreeChunk k p)
    unmarkAt k place
    pure (.found found)

/-! ## The calls on lists -/

/-- The chunks, the lists, when each chunk came to its list, and the calls so far. -/
structure BinHistory where
  sizes : Nat → Option Nat
  lists : Shelf → List Nat
  since : Nat → Nat
  calls : List BinCall

namespace BinHistory

def remove (g : BinHistory) (p : Nat) : BinHistory := { g with lists := Words.remove g.lists p }

/-- List `sh` becomes `l` with `p` in it. -/
def put (g : BinHistory) (sh : Shelf) (l : List Nat) (p : Nat) : BinHistory :=
  { g with lists := Function.update g.lists sh l, since := Function.update g.since p g.calls.length }

end BinHistory

/-- What a call with this answer makes of the lists. -/
def BinCall.moves (g : BinHistory) (a : BinAnswer) : BinCall → BinHistory
  | .fastPush i p => g.put (.fast i) (p :: g.lists (.fast i)) p
  | .fastPopAll i => { g with lists := Function.update g.lists (.fast i) [] }
  | .pushFront i p => g.put (.bin i) (p :: g.lists (.bin i)) p
  | .pushBack i p => g.put (.bin i) (g.lists (.bin i) ++ [p]) p
  | .unlink p => g.remove p
  | .unlinkFree p => g.remove p
  | .popFront _ => match a with
    | .chunk (some p) => g.remove p
    | _ => g
  | .alloc _ => match a with
    | .chunk (some p) => g.remove p
    | _ => g
  | .allocSplit nb => match a with
    | .split (some (p, some q)) => { (g.remove p).put (.bin unsortedBinIdx)
        (q :: (g.remove p).lists (.bin unsortedBinIdx)) q with sizes := cut g.sizes p (sizeAt g.sizes p) nb }
    | .split (some (p, none)) => g.remove p
    | _ => g

def BinCall.after (g : BinHistory) (a : BinAnswer) (call : BinCall) : BinHistory :=
  { call.moves g a with calls := call :: g.calls }

/-- A chunk that is in no list. -/
def BinHistory.Loose (g : BinHistory) (p : Nat) : Prop := (∃ n, g.sizes p = some n) ∧ ∀ sh, p ∉ g.lists sh

def BinCall.Allowed (g : BinHistory) : BinCall → Prop
  | .fastPush i p => i < nFastbins ∧ g.Loose p
  | .fastPopAll i => i < nFastbins
  | .pushFront i p => i < nBins ∧ g.Loose p
  | .pushBack i p => i < nBins ∧ g.Loose p
  | .unlink p => ∃ i, p ∈ g.lists (.bin i)
  | .popFront i => i < nBins
  | .alloc idx => unsortedBinIdx + 1 + idx < nBins
  | .allocSplit nb => 32 ≤ nb ∧ 16 ∣ nb
  | .unlinkFree _ => True

/-- Bin 0 is not used, and `alloc_split` finds a chunk. -/
def BinCall.Fits (g : BinHistory) : BinCall → Prop
  | .pushFront i _ => i ≠ 0
  | .pushBack i _ => i ≠ 0
  | .popFront i => i ≠ 0
  | .allocSplit nb => ∃ li, largebinIndex nb ≤ li ∧ li < 62 ∧ ∃ c ∈ g.lists (.bin (66 + li)), nb ≤ sizeAt g.sizes c
  | _ => True

/-- What a call answers. -/
def BinCall.Answers (g : BinHistory) (a : BinAnswer) : BinCall → Prop
  | .fastPopAll i => a = .chunk (g.lists (.fast i)).head?
  | .popFront i => a = .chunk (g.lists (.bin i)).head?
  | .alloc idx => a = .chunk (g.lists (.bin (unsortedBinIdx + 1 + idx))).getLast? ∧
      ((∀ p, .pushBack (unsortedBinIdx + 1 + idx) p ∉ g.calls) →
        ∀ p ∈ (g.lists (.bin (unsortedBinIdx + 1 + idx))).getLast?,
          ∀ q ∈ g.lists (.bin (unsortedBinIdx + 1 + idx)), g.since p ≤ g.since q)
  | .unlinkFree p => ∃ b, a = .found b ∧ (b = true ↔ ∃ sh, p ∈ g.lists sh)
  | .allocSplit _ => ∃ v, a = .split (some v)
  | _ => a = .done

/-- Runs from empty bins. -/
inductive BinRun (k : Nat) (fits : BinHistory → BinCall → Prop) : Bins τ → BinHistory → Prop where
  | start {s : State τ} {N : Nat → Option Nat} (h : s.Lists k N fun _ => []) :
      BinRun k fits ⟨s, fun _ => 0⟩ ⟨N, fun _ => [], fun _ => 0, []⟩
  | call {b b' : Bins τ} {g : BinHistory} {a : BinAnswer} (before : BinRun k fits b g) (c : BinCall) (fit : fits g c)
      (run : c.exec k b = some (a, b')) : BinRun k fits b' (c.after g a)

/-- A bin that was filled from the front only has its oldest chunk last. -/
structure BinHistory.InOrder (g : BinHistory) : Prop where
  young : ∀ sh c, c ∈ g.lists sh → g.since c < g.calls.length
  order : ∀ i, (∀ p, .pushBack i p ∉ g.calls) → (g.lists (.bin i)).Pairwise fun a b => g.since b < g.since a

namespace BinHistory.InOrder
variable {g : BinHistory} {sh : Shelf} {p : Nat} {call : BinCall} {a : BinAnswer} {l : List Nat}

/-- Lists that lose chunks. -/
theorem sublist {L : Shelf → List Nat} (h : g.InOrder) (hsub : ∀ sh, (L sh).Sublist (g.lists sh)) :
    InOrder { g with lists := L } where
  young sh c hc := h.young sh c ((hsub sh).subset hc)
  order i hi := (h.order i hi).sublist (hsub (.bin i))

theorem remove (h : g.InOrder) (p : Nat) : (g.remove p).InOrder := h.sublist fun _ => List.erase_sublist

theorem tick (h : g.InOrder) (call : BinCall) : InOrder { g with calls := call :: g.calls } where
  young sh c hc := (h.young sh c hc).trans (Nat.lt_succ_self _)
  order i hi := h.order i fun p hp => hi p (List.mem_cons_of_mem _ hp)

/-- A chunk that comes to a list, in front unless the call is a `push_back`. -/
theorem put (h : g.InOrder) (hout : ∀ sh, p ∉ g.lists sh) (hl : ∀ c ∈ l, c = p ∨ c ∈ g.lists sh)
    (hfront : l = p :: g.lists sh ∨ ∃ i, sh = .bin i ∧ call = .pushBack i p) :
    InOrder { g.put sh l p with calls := call :: g.calls } := by
  have hsince : ∀ {sh c}, c ∈ g.lists sh → Function.update g.since p g.calls.length c = g.since c := fun {sh c} hc =>
    Function.update_of_ne (fun e : c = p => hout sh (e ▸ hc)) ..
  have hp : Function.update g.since p g.calls.length p = g.calls.length := Function.update_self ..
  have hold : ∀ {sh c}, c ∈ g.lists sh → Function.update g.since p g.calls.length c < g.calls.length := fun {sh c} hc =>
    (hsince hc).trans_lt (h.young sh c hc)
  constructor
  · intro sh' c hc
    change Function.update g.since p g.calls.length c < g.calls.length + 1
    rcases mem_update hc with ⟨-, hm⟩ | ⟨-, hm⟩
    · rcases hl c hm with rfl | hm
      · omega
      · exact (hold hm).trans (Nat.lt_succ_self _)
    · exact (hold hm).trans (Nat.lt_succ_self _)
  · intro i hi
    have horder := h.order i fun q hq => hi q (List.mem_cons_of_mem _ hq)
    have hkept : (g.lists (.bin i)).Pairwise fun a b =>
        Function.update g.since p g.calls.length b < Function.update g.since p g.calls.length a :=
      horder.imp_of_mem fun ha hb hab => by rwa [hsince ha, hsince hb]
    change (Function.update g.lists sh l (.bin i)).Pairwise _
    rcases eq_or_ne (.bin i) sh with rfl | hne
    · rcases hfront with rfl | ⟨j, e, rfl⟩
      · rw [Function.update_self]
        exact List.pairwise_cons.mpr ⟨fun c hc => (hold hc).trans_eq hp.symm, hkept⟩
      · obtain rfl := Shelf.bin.inj e
        exact absurd List.mem_cons_self (hi p)
    · rwa [Function.update_of_ne hne]

end BinHistory.InOrder

/-! ## The calls on words -/

theorem onState_run {α : Type} {x : Exec (State τ) α} {b : Bins τ} {a : α} {s' : State τ}
    (h : x b.state = some (a, s')) : onState x b = some (a, { b with state := s' }) := by
  unfold onState
  rw [h]
  rfl

theorem binAt_run (k i : Nat) (b : Bins τ) : binAt k i b = some (sentinel (b.state.arena k).base i, b) := rfl

/-- The bins that are not empty are marked. -/
def Bins.MarksOk (b : Bins τ) (L : Shelf → List Nat) : Prop := ∀ i, L (.bin i) ≠ [] → b.binmap.Marked i

section
variable {b : Bins τ} {s : State τ} {k i p n : Nat} {N : Nat → Option Nat} {L L' : Shelf → List Nat} {sh : Shelf}

theorem Bins.MarksOk.mono (h : b.MarksOk L) (hsub : ∀ i, (L' (.bin i)).Sublist (L (.bin i))) (s' : State τ) :
    MarksOk { b with state := s' } L' := fun i hne =>
  h i fun e => hne (List.sublist_nil.mp (e ▸ hsub i))

/-- After `mark_bin`, with a new chunk in the bin. -/
theorem Bins.MarksOk.mark (h : b.MarksOk L) (l : List Nat) (s' : State τ) :
    MarksOk ⟨s', markBin b.binmap i⟩ (Function.update L (.bin i) l) := fun j hne => by
  rcases eq_or_ne j i with rfl | hj
  · exact marked_markBin.mpr (.inl rfl)
  · rw [Function.update_of_ne fun e => hj (Shelf.bin.inj e)] at hne
    exact marked_markBin.mpr (.inr (h j hne))

/-- `unmark_bin`, whether or not the caller asks before if the bin is empty. -/
theorem unmark_run (h : b.state.Lists k N L') (hi : (Shelf.bin i).Valid) (hm : b.MarksOk L)
    (hbin : L' (.bin i) = L (.bin i)) : ∃ m, unmark k i b = some ((), { b with binmap := m }) ∧
      unmarkEmpty k i b = some ((), { b with binmap := m }) ∧ Bins.MarksOk { b with binmap := m } L := by
  have hempty := onState_run (h.binEmpty_run hi.1 hi.2)
  unfold unmarkEmpty unmark
  rw [if_pos hi.2, bind_run (binAt_run k i b), bind_run hempty, bind_run (binAt_run k i b), bind_run hempty]
  by_cases he : L' (.bin i) = []
  · rw [decide_eq_true he] at hempty ⊢
    rw [if_pos rfl, if_pos rfl, bind_run (binAt_run k i b), bind_run hempty]
    refine ⟨_, rfl, rfl, fun j hne => marked_clearBin.mpr ⟨?_, hm j hne⟩⟩
    rintro rfl
    exact hne (hbin ▸ he)
  · rw [decide_eq_false he]
    exact ⟨_, rfl, rfl, hm⟩

/-- `BinList::push_back`. -/
theorem State.Lists.pushBack_run (h : s.Lists k N L) (hi1 : 1 ≤ i) (hi2 : i < nBins) (hp : N p = some n) :
    Words.pushBack (sentinel (s.arena k).base i) p s =
      some ((), { s with mem := pushBackMem s.mem (sentinel (s.arena k).base i) p }) := by
  have hsnt : Node (s.arena k).base N (sentinel (s.arena k).base i) := FreeLists.node_sentinel hi1 hi2
  have hnp : Node (s.arena k).base N p := .inl ⟨n, hp⟩
  have hnl : Node (s.arena k).base N (bkOf s.mem (sentinel (s.arena k).base i)) := by
    rcases (h.loop i hi1 hi2).reverse.fd_mem (.inl rfl) with e | hm
    · rw [e]
      exact hsnt
    · exact h.node_of_mem (List.mem_reverse.mp hm)
  have h0 : s.mem (sentinel (s.arena k).base i + 24) ≠ 0 := h.node_ne_zero hnl
  unfold Words.pushBack
  rw [bind_run (load_run (h.node_mapped hsnt).2), bind_run (store_run (h.node_mapped hnp).1),
    bind_run (store_run (by exact (h.node_mapped hnp).2)), bind_run (store_run (by exact (h.node_mapped hsnt).2)),
    if_pos h0]
  exact store_run (by exact (h.node_mapped hnl).1)

/-- `BinList::unlink` and the lists without the chunk. -/
theorem State.Lists.unlink_mem (h : s.Lists k N L) (hp : p ∈ L (.bin i)) :
    ∃ s', Words.unlink p s = some ((), s') ∧ s'.Lists k N (remove L p) := by
  obtain ⟨l₁, l₂, hl⟩ := List.append_of_mem hp
  rw [h.remove_eq hl]
  exact ⟨_, h.unlink_run hp, (h.unlink_bin hl).1⟩

theorem State.Lists.popFront_run (h : s.Lists k N L) (hi1 : 1 ≤ i) (hi2 : i < nBins) :
    (L (.bin i) = [] → Words.popFront (sentinel (s.arena k).base i) s = some (none, s)) ∧
      ∀ p ∈ (L (.bin i)).head?, ∃ s', Words.popFront (sentinel (s.arena k).base i) s = some (some p, s') ∧
        s'.Lists k N (remove L p) := by
  unfold Words.popFront
  rw [bind_run (h.binEmpty_run hi1 hi2)]
  refine ⟨fun he => ?_, fun p hp => ?_⟩
  · rw [if_pos (decide_eq_true he)]
    rfl
  · obtain ⟨l, hl⟩ := List.head?_eq_some_iff.mp hp
    have hfd : s.mem (sentinel (s.arena k).base i + 16) = p := by
      have := (h.loop i hi1 hi2).chain
      rw [hl] at this
      exact this.1
    obtain ⟨s', hrun, hlists⟩ := h.unlink_mem (i := i) (p := p) (by simp [hl])
    have hmapped := (h.node_mapped (FreeLists.node_sentinel (N := N) hi1 hi2)).1
    rw [if_neg (by simp [hl]), bind_run (load_run hmapped), hfd, bind_run hrun]
    exact ⟨s', rfl, hlists⟩

theorem State.Lists.smallbinAlloc_run {idx : Nat} (h : s.Lists k N L) (hi : unsortedBinIdx + 1 + idx < nBins) :
    (L (.bin (unsortedBinIdx + 1 + idx)) = [] → smallbinAlloc k idx s = some (none, s)) ∧
      ∀ p ∈ (L (.bin (unsortedBinIdx + 1 + idx))).getLast?, ∃ s', smallbinAlloc k idx s = some (some p, s') ∧
        s'.Lists k N (remove L p) := by
  have hi1 : 1 ≤ unsortedBinIdx + 1 + idx := by omega
  have hbin : smallBin k idx s = some (sentinel (s.arena k).base (unsortedBinIdx + 1 + idx), s) := rfl
  unfold smallbinAlloc
  rw [bind_run hbin, bind_run (h.binEmpty_run hi1 hi)]
  generalize unsortedBinIdx + 1 + idx = i at hi hi1 ⊢
  refine ⟨fun he => ?_, fun p hp => ?_⟩
  · rw [if_pos (decide_eq_true he)]
    rfl
  · obtain ⟨l, hl⟩ := List.getLast?_eq_some_iff.mp hp
    have hin : p ∈ L (.bin i) := by simp [hl]
    have hbk : s.mem (sentinel (s.arena k).base i + 24) = p := by
      have := (h.loop i hi1 hi).reverse.chain
      rw [hl, List.reverse_append] at this
      exact this.1
    obtain ⟨-, n, hn⟩ := h.listed _ p hin
    obtain ⟨s', hrun, hlists⟩ := h.unlink_mem hin
    have hmapped := (h.node_mapped (FreeLists.node_sentinel (N := N) hi1 hi)).2
    rw [if_neg (by simp [hl]), bind_run (load_run hmapped), hbk, if_neg (h.sentinel_ne hn hi), bind_run hrun]
    exact ⟨s', rfl, hlists⟩

/-- Another head of a fastbin. -/
def State.setFast (s : State τ) (k i v : Nat) : State τ := { s with
  arena := Function.update s.arena k { s.arena k with fast := Function.update (s.arena k).fast i v } }

theorem State.setFast_lists {v : Nat}
    (h : FreeLists s.mapped s.mem (s.arena k).base (Function.update (s.arena k).fast i v) N L) :
    (s.setFast k i v).Lists k N L := by
  have harena : (s.setFast k i v).arena k = { s.arena k with fast := Function.update (s.arena k).fast i v } :=
    Function.update_self ..
  unfold State.Lists
  rw [harena]
  exact h

/-- `unlink_free_chunk` of a chunk in a list. -/
theorem State.Lists.unlinkFreeChunk_mem (h : s.Lists k N L) (hp : p ∈ L sh) :
    ∃ place s', findFree k p s = some (some place, s) ∧ unlinkFreeChunk k p s = some (true, s') ∧
      s'.Lists k N (remove L p) ∧ ∀ i, place = .bin i → sh = .bin i := by
  obtain ⟨l₁, l₂, hl⟩ := List.append_of_mem hp
  rw [h.remove_eq hl]
  cases sh with
  | bin i =>
    exact ⟨.bin i, _, h.findFree_bin hp, h.unlinkFreeChunk_run hp, (h.unlink_bin hl).1,
      fun j e => congrArg Shelf.bin (Place.bin.inj e)⟩
  | fast i =>
    have hfind := h.findFree_fast hl
    have hload : load (p + 16) s = some (fdOf s.mem p, s) := load_run (h.node_mapped (h.node_of_mem hp)).1
    obtain ⟨hfirst, hinner⟩ := h.takeFast hl
    unfold unlinkFreeChunk
    rw [bind_run hfind]
    rcases List.eq_nil_or_concat l₁ with rfl | ⟨l, q, rfl⟩
    · exact ⟨_, s.setFast k i (fdOf s.mem p), hfind, bind_run hload, State.setFast_lists (hfirst rfl), by simp⟩
    · rw [List.concat_eq_append] at hl hfind hinner ⊢
      have hq : q ∈ L (.fast i) := by simp [hl]
      have hstore := store_run (v := fdOf s.mem p) (h.node_mapped (h.node_of_mem hq)).1
      refine ⟨_, { s with mem := Function.update s.mem (q + 16) (fdOf s.mem p) }, hfind, (bind_run hload).trans ?_,
        hinner q (by simp), by simp⟩
      rw [List.getLast?_concat, Option.getD_some, if_pos (h.node_ne_zero (h.node_of_mem hq))]
      exact bind_run hstore

/-! ## Every call -/

/-- What holds in every state of a run. -/
structure BinsInv (b : Bins τ) (k : Nat) (g : BinHistory) : Prop where
  lists : b.state.Lists k g.sizes g.lists
  marks : b.MarksOk g.lists
  order : g.InOrder

/-- The call has a result, as the lists say. -/
def BinCall.Does (k : Nat) (b : Bins τ) (g : BinHistory) (call : BinCall) : Prop :=
  ∃ a b', call.exec k b = some (a, b') ∧ BinsInv b' k (call.after g a) ∧ call.Answers g a

variable {g : BinHistory}

section
variable (h : BinsInv b k g)
include h

theorem BinsInv.does_fastPush (hok : (BinCall.fastPush i p).Allowed g) :
    (BinCall.fastPush i p).Does k b g := by
  obtain ⟨hi, ⟨n, hn⟩, hout⟩ := hok
  have hrun := onState_run (b := b) (fastPush_run (k := k) (i := i)
    (h.lists.node_mapped (.inl ⟨n, hn⟩)).1)
  have hlists := h.lists.pushFast hi hn hout
  refine ⟨_, _, bind_run hrun, ⟨State.setFast_lists (s := { b.state with mem := _ }) hlists, ?_, ?_⟩, rfl⟩
  · refine h.marks.mono (fun j => ?_) _
    have hne : Shelf.bin j ≠ .fast i := by simp
    change (Function.update g.lists (.fast i) (p :: g.lists (.fast i)) (.bin j)).Sublist _
    rw [Function.update_of_ne hne]
  · exact h.order.put hout (fun c hc => List.mem_cons.mp hc) (.inl rfl)

theorem BinsInv.does_fastPopAll (hi : i < nFastbins) : (BinCall.fastPopAll i).Does k b g := by
  have hsub : ∀ sh, (Function.update g.lists (.fast i) [] sh).Sublist (g.lists sh) := fun sh => by
    rcases eq_or_ne sh (.fast i) with rfl | hne
    · rw [Function.update_self]
      exact List.nil_sublist _
    · rw [Function.update_of_ne hne]
  have hrun : onState (Words.fastPopAll k i) b = some ((b.state.arena k).fast i, { b with state := b.state.setFast k i 0 }) := rfl
  refine ⟨_, _, bind_run hrun, ⟨State.setFast_lists (h.lists.clearFast hi), h.marks.mono (fun j => hsub (.bin j)) _,
    (h.order.sublist hsub).tick _⟩, congrArg BinAnswer.chunk ?_⟩
  have hchain := h.lists.chain i hi
  cases hl : g.lists (.fast i) with
  | nil =>
    rw [hl] at hchain
    exact if_pos hchain
  | cons c l =>
    rw [hl] at hchain
    rw [hchain.1]
    exact if_neg hchain.2.1

theorem BinsInv.does_push (hi : i < nBins) (h0 : i ≠ 0) (hp : g.Loose p) :
    (BinCall.pushFront i p).Does k b g ∧ (BinCall.pushBack i p).Does k b g := by
  have h1 : 1 ≤ i := Nat.one_le_iff_ne_zero.mpr h0
  obtain ⟨⟨n, hn⟩, hout⟩ := hp
  have hfront := onState_run (b := b) (h.lists.pushFront_run h1 hi hn)
  have hback := onState_run (b := b) (h.lists.pushBack_run h1 hi hn)
  constructor
  · refine ⟨_, _, (bind_run (binAt_run k i b)).trans (bind_run hfront),
      ⟨h.lists.push h1 hi hn hout, h.marks.mark _ _, h.order.put hout (fun c hc => List.mem_cons.mp hc) (.inl rfl)⟩, rfl⟩
  · refine ⟨_, _, (bind_run (binAt_run k i b)).trans (bind_run hback),
      ⟨h.lists.pushBack h1 hi hn hout, h.marks.mark _ _, h.order.put hout (fun c hc => ?_) (.inr ⟨i, rfl, rfl⟩)⟩, rfl⟩
    rcases List.mem_append.mp hc with hc | hc
    · exact .inr hc
    · exact .inl (List.mem_singleton.mp hc)

/-- A chunk is taken out, and bins may be unmarked. -/
theorem BinsInv.removed {s' : State τ} (hs : s'.Lists k g.sizes (remove g.lists p)) (call : BinCall) :
    BinsInv { b with state := s' } k { g.remove p with calls := call :: g.calls } :=
  ⟨hs, h.marks.mono (fun _ => List.erase_sublist) s', (h.order.remove p).tick call⟩

theorem BinsInv.does_unlink (hp : p ∈ g.lists (.bin i)) : (BinCall.unlink p).Does k b g := by
  obtain ⟨s', hrun, hs⟩ := h.lists.unlink_mem hp
  exact ⟨_, _, bind_run (onState_run hrun), h.removed hs _, rfl⟩

theorem BinsInv.does_popFront (hi : i < nBins) (h0 : i ≠ 0) : (BinCall.popFront i).Does k b g := by
  obtain ⟨hnone, hsome⟩ := h.lists.popFront_run (Nat.one_le_iff_ne_zero.mpr h0) hi
  cases hl : (g.lists (.bin i)).head? with
  | none =>
    have hrun := onState_run (hnone (List.head?_eq_none_iff.mp hl))
    exact ⟨.chunk none, b, (bind_run (binAt_run k i b)).trans (bind_run hrun),
      ⟨h.lists, h.marks, h.order.tick _⟩, congrArg BinAnswer.chunk hl.symm⟩
  | some p =>
    obtain ⟨s', hrun, hs⟩ := hsome p hl
    exact ⟨.chunk (some p), _, (bind_run (binAt_run k i b)).trans (bind_run (onState_run hrun)), h.removed hs _,
      congrArg BinAnswer.chunk hl.symm⟩

theorem BinsInv.does_alloc {idx : Nat} (hi : unsortedBinIdx + 1 + idx < nBins) :
    (BinCall.alloc idx).Does k b g := by
  obtain ⟨hnone, hsome⟩ := h.lists.smallbinAlloc_run hi
  have hvalid : (Shelf.bin (unsortedBinIdx + 1 + idx)).Valid := ⟨by omega, hi⟩
  cases hl : (g.lists (.bin (unsortedBinIdx + 1 + idx))).getLast? with
  | none =>
    have hrun := onState_run (hnone (List.getLast?_eq_none_iff.mp hl))
    refine ⟨.chunk none, b, bind_run hrun, ⟨h.lists, h.marks, h.order.tick _⟩, congrArg BinAnswer.chunk hl.symm, ?_⟩
    rw [hl]
    simp
  | some p =>
    obtain ⟨s', hrun, hs⟩ := hsome p hl
    have hrem := h.removed hs (.alloc idx)
    obtain ⟨m, hunmark, -, hm⟩ := unmark_run hrem.lists hvalid hrem.marks rfl
    refine ⟨.chunk (some p), _, (bind_run (onState_run hrun)).trans (bind_run hunmark), ⟨hs, hm, hrem.order⟩,
      congrArg BinAnswer.chunk hl.symm, fun hno q hq c hc => ?_⟩
    -- the last chunk came before all others
    obtain ⟨l, hlist⟩ := List.getLast?_eq_some_iff.mp hq
    have horder := h.order.order _ hno
    rw [hlist] at horder hc
    rcases List.mem_append.mp hc with hc | hc
    · exact ((List.pairwise_append.mp horder).2.2 c hc q (List.mem_singleton_self q)).le
    · exact (congrArg g.since (List.mem_singleton.mp hc)).ge

theorem BinsInv.does_unlinkFree (p : Nat) : (BinCall.unlinkFree p).Does k b g := by
  by_cases hp : ∃ sh, p ∈ g.lists sh
  · obtain ⟨sh, hp⟩ := hp
    obtain ⟨place, s', hfind, hrun, hs, hplace⟩ := h.lists.unlinkFreeChunk_mem hp
    have hrem := h.removed hs (.unlinkFree p)
    have hexec : (BinCall.unlinkFree p).exec k b =
        (do unmarkAt k (some place); pure (BinAnswer.found true)) { b with state := s' } :=
      (bind_run (onState_run hfind)).trans (bind_run (onState_run hrun))
    cases place with
    | fast i prev => exact ⟨.found true, _, hexec, hrem, true, rfl, iff_of_true rfl ⟨sh, hp⟩⟩
    | bin i =>
      obtain rfl := hplace i rfl
      obtain ⟨m, hunmark, -, hm⟩ := unmark_run hrem.lists (h.lists.listed _ p hp).1 hrem.marks rfl
      exact ⟨.found true, _, hexec.trans (bind_run hunmark), ⟨hs, hm, hrem.order⟩, true, rfl, iff_of_true rfl ⟨_, hp⟩⟩
  · have hout : ∀ sh, p ∉ g.lists sh := fun sh hm => hp ⟨sh, hm⟩
    have hfind := h.lists.findFree_none hout
    have hrun : unlinkFreeChunk k p b.state = some (false, b.state) := bind_run hfind
    have hs : b.state.Lists k g.sizes (remove g.lists p) := by
      have hsame : remove g.lists p = g.lists := funext fun sh => List.erase_of_not_mem (hout sh)
      rw [hsame]
      exact h.lists
    exact ⟨.found false, b, (bind_run (onState_run hfind)).trans (bind_run (onState_run hrun)), h.removed hs _,
      false, rfl, iff_of_false (by simp) hp⟩

omit h in
theorem splitMarked_skip {nb : Nat} {before after : List Nat}
    (h : ∀ j ∈ before, splitFrom k nb j b.state = some (none, b.state)) :
    splitMarked k nb (before ++ after) b = splitMarked k nb after b := by
  induction before with
  | nil => rfl
  | cons j before ih =>
    rw [List.cons_append, splitMarked, bind_run (onState_run (h j List.mem_cons_self))]
    exact ih fun j hj => h j (List.mem_cons_of_mem _ hj)

omit h in
/-- A chunk at the front of a list is in no list besides. -/
theorem FreeLists.fresh {mapped : Nat → Bool} {mem fast : Nat → Nat} {base : Nat}
    (h : FreeLists mapped mem base fast N (Function.update L sh (p :: L sh))) (sh' : Shelf) : p ∉ L sh' := by
  have hp : p ∈ Function.update L sh (p :: L sh) sh := by
    rw [Function.update_self]
    exact List.mem_cons_self
  intro hm
  rcases eq_or_ne sh' sh with rfl | hne
  · have hnd := h.nodup sh'
    rw [Function.update_self] at hnd
    exact (List.nodup_cons.mp hnd).1 hm
  · exact hne (h.once sh' sh p (by rwa [Function.update_of_ne hne]) hp)

theorem BinsInv.does_allocSplit {nb : Nat} (hok : (BinCall.allocSplit nb).Allowed g)
    (hfit : (BinCall.allocSplit nb).Fits g) : (BinCall.allocSplit nb).Does k b g := by
  have h66 : unsortedBinIdx + 1 + nSmallbins = 66 := rfl
  obtain ⟨-, -, before, i, behind, ⟨p, rest⟩, s', -, hcand, hi, hskip, -, hrun, hs⟩ :=
    h.lists.allocSplit_found hok.1 hok.2 hfit
  have hvalid : (Shelf.bin (66 + i)).Valid := ⟨by omega, by have : nBins = 128 := rfl; omega⟩
  have hmarks : Bins.MarksOk { b with state := s' } (remove g.lists p) := h.marks.mono (fun _ => List.erase_sublist) s'
  have hbin : splitLists g.lists (p, rest) (.bin (66 + i)) = remove g.lists p (.bin (66 + i)) := by
    cases rest with
    | none => rfl
    | some q =>
      have hne : Shelf.bin (66 + i) ≠ .bin unsortedBinIdx := fun e => by
        have := Shelf.bin.inj e
        omega
      exact Function.update_of_ne hne ..
  obtain ⟨m, -, hunmark, hm⟩ := unmark_run hs hvalid hmarks hbin
  have hexec : ∀ after, (do
      unmarkEmpty k (66 + i)
      if rest.isSome then mark unsortedBinIdx
      pure (some (p, rest))) { b with state := s' } = some (some (p, rest), after) →
      (BinCall.allocSplit nb).exec k b = some (.split (some (p, rest)), after) := fun after hafter => by
    have hsplit : splitMarked k nb (LargeBins.candidates nb) b = some (some (p, rest), after) := by
      rw [hcand, splitMarked_skip hskip, splitMarked, bind_run (onState_run hrun)]
      exact hafter
    exact bind_run hsplit
  cases rest with
  | none =>
    exact ⟨_, _, hexec _ (bind_run hunmark), ⟨hs, hm, (h.order.remove p).tick _⟩, _, rfl⟩
  | some q =>
    have horder : BinHistory.InOrder { (g.remove p).put (.bin unsortedBinIdx)
        (q :: (g.remove p).lists (.bin unsortedBinIdx)) q with calls := .allocSplit nb :: g.calls } :=
      (h.order.remove p).put (FreeLists.fresh hs) (fun c hc => List.mem_cons.mp hc) (.inl rfl)
    exact ⟨_, _, hexec _ (bind_run hunmark), ⟨hs, hm.mark _ _, horder.young, horder.order⟩, _, rfl⟩

theorem BinsInv.does {call : BinCall} (hok : call.Allowed g) (hfit : call.Fits g) :
    call.Does k b g := by
  cases call with
  | fastPush i p => exact h.does_fastPush hok
  | fastPopAll i => exact h.does_fastPopAll hok
  | pushFront i p => exact (h.does_push hok.1 hfit hok.2).1
  | pushBack i p => exact (h.does_push hok.1 hfit hok.2).2
  | unlink p =>
    obtain ⟨i, hp⟩ := hok
    exact h.does_unlink hp
  | popFront i => exact h.does_popFront hok hfit
  | alloc idx => exact h.does_alloc hok
  | allocSplit nb => exact h.does_allocSplit hok hfit
  | unlinkFree p => exact h.does_unlinkFree p

end

theorem BinRun.inv (h : BinRun k (fun g c => c.Allowed g ∧ c.Fits g) b g) : BinsInv b k g := by
  induction h with
  | start h => exact ⟨h, fun i hne => absurd rfl hne, ⟨by simp, fun _ _ => .nil⟩⟩
  | call before c fit run ih =>
    obtain ⟨a, b', hrun, hinv, -⟩ := ih.does fit.1 fit.2
    obtain ⟨rfl, rfl⟩ := Prod.mk.inj (Option.some.inj (run.symm.trans hrun))
    exact hinv

theorem lists_loneChunk : (loneChunk 64).Lists 0 (soleChunk 64) fun _ => [] :=
  soleUnsorted_init (by decide) (by decide) (by decide)

/-- With empty bins, `alloc_split` comes to the bin behind the array. -/
theorem alloc_split_faults : ∃ (b : Bins Unit) (g : BinHistory), BinRun 0 (fun g c => c.Allowed g) b g ∧
    (BinCall.allocSplit 1024).Allowed g ∧ (BinCall.allocSplit 1024).exec 0 b = none :=
  ⟨_, _, .start lists_loneChunk, (by decide : 32 ≤ 1024 ∧ 16 ∣ 1024), Option.isNone_iff_eq_none.mp (by decide +kernel)⟩

end

end MyMalloc.Ptmalloc.Words
