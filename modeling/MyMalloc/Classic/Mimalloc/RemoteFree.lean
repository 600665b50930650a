import MyMalloc.Classic.Mimalloc.LinkedHeap

/- Remote frees of the blocks of one page (`drain_remote`, `mi_malloc`, `mi_free`).

   The owner of a page allocates from it and drains its queue, while other threads
   free its blocks: the compare-exchange that puts a block in the queue is one step,
   and the `page->used--` after it is a load and a store like any other. So is the
   owner's `page->used++`.

   Two things go wrong. A drain that finds a block in the queue reads its encoded
   link as an address and has no result, and two updates of `used` can be based on
   one value, of which one is lost. In runs in which the drains find the queue empty
   and every store of `used` finds it as it was loaded the blocks are in the list, in
   the queue or live, each once, and the counters add up (`Reach.ok`). -/
namespace MyMalloc.Mimalloc.RemoteFree

/-- Where the owner is in `mi_malloc`. -/
inductive Owner where
  | idle
  | entered
  | checked
  | popped (b : Nat)
  | loaded (b used : Nat)
  deriving DecidableEq

/-- The block the owner has in hand. -/
def Owner.hand : Owner → List Nat
  | .popped b => [b]
  | .loaded b _ => [b]
  | _ => []

/-- A page with its words. `direct` says that the heap allocates from it, `calls` has the remote
    frees past their compare-exchange with what they have loaded of `used`, and `live` the blocks
    the clients have. -/
structure State where
  page : LPage
  word : Words
  direct : Bool
  owner : Owner
  calls : List (Option Nat)
  live : List Nat

/-- The page as `mi_page_alloc` leaves it. -/
def State.start (seg size tag : Nat) (word : Words) : State :=
  let p := initPage seg size tag word
  ⟨p.1, p.2, true, .idle, [], []⟩

/-- No call is in flight. -/
def State.Quiet (s : State) : Prop := s.owner = .idle ∧ s.calls = []

inductive Action where
  /-- `mi_malloc` chooses the page; if it is full a new one takes its place, when `granted`. -/
  | enter (granted : Bool)
  /-- `mi_malloc` looks at the queue, and drains it. -/
  | check
  | pop
  | loadUsed
  | storeUsed
  /-- A call of `drain_remote`. -/
  | drain
  /-- A client writes the first word of its block. -/
  | write (b w : Nat)
  /-- The successful compare-exchange of a remote `mi_free`. -/
  | push (b : Nat)
  | remoteLoad (i : Nat)
  | remoteStore (i : Nat)

/-- Put back what `drain_remote` gives. -/
def State.drained (seg fuel : Nat) (s : State) (owner : Owner) : Option State :=
  (drainRemote seg fuel (s.page, s.word)).map
    (fun p => { s with page := p.1, word := p.2, owner := owner })

def step (seg fuel : Nat) (s : State) : Action → Option State
  | .enter granted =>
    if s.owner ≠ .idle then none
    else if s.direct ∧ s.page.localFree ≠ 0 then some { s with owner := .entered }
    else some { s with direct := s.direct && !granted }
  | .check => if s.owner = .entered then s.drained seg fuel .checked else none
  | .pop =>
    if s.owner ≠ .checked then none
    -- a new page would serve the request
    else if s.page.localFree = 0 then some { s with direct := false, owner := .idle }
    else
      let p := popLocal (s.page, s.word)
      some { s with page := p.2.1, word := p.2.2, owner := .popped p.1 }
  | .loadUsed =>
    match s.owner with
    | .popped b => some { s with owner := .loaded b s.page.used }
    | _ => none
  | .storeUsed =>
    match s.owner with
    | .loaded b used =>
      let used := (used + 1) % 2^32
      some { s with
        page := { s.page with used := used }
        direct := s.direct && decide (used ≠ s.page.capacity)
        owner := .idle
        live := b :: s.live }
    | _ => none
  | .drain => if s.owner = .idle then s.drained seg fuel .idle else none
  | .write b w => if b ∈ s.live then some { s with word := Function.update s.word b w } else none
  | .push b =>
    if b ∈ s.live then
      let p := pushRemote b (s.page, s.word)
      some { s with page := p.1, word := p.2, calls := none :: s.calls, live := s.live.erase b }
    else none
  | .remoteLoad i =>
    if s.calls[i]? = some none then some { s with calls := s.calls.set i (some s.page.used) }
    else none
  | .remoteStore i =>
    match s.calls[i]? with
    | some (some used) => some { s with
        page := { s.page with used := (used + 2^32 - 1) % 2^32 }
        calls := s.calls.eraseIdx i }
    | _ => none

/-- The condition on a step: drains find the queue empty, and stores of `used` find it as it was
    loaded. -/
def Orderly (s : State) : Action → Prop
  | .check => s.page.xthreadFree = 0
  | .drain => s.page.xthreadFree = 0
  | .storeUsed => ∀ b used, s.owner = .loaded b used → s.page.used = used
  | .remoteStore i => ∀ used, s.calls[i]? = some (some used) → s.page.used = used
  | _ => True

/-- The states reached from `s₀` by steps that meet a condition. -/
inductive Reach (seg fuel : Nat) (fits : State → Action → Prop) (s₀ : State) : State → Prop where
  | start : Reach seg fuel fits s₀ s₀
  | step {s s' : State} (h : Reach seg fuel fits s₀ s) (a : Action) (fit : fits s a)
      (exec : RemoteFree.step seg fuel s a = some s') : Reach seg fuel fits s₀ s'

/-- `drain_remote` returns, and the decoded `local_free` list then has its previous blocks and those
    of the queue, each once. -/
def DrainsWell (seg : Nat) (s : State) : Prop :=
  ∃ fuel p free queue l, drainRemote seg fuel (s.page, s.word) = some p ∧
    Chain 0 (s.page.next s.word) s.page.localFree free ∧
    Chain 0 (s.page.next s.word) s.page.xthreadFree queue ∧
    Chain 0 (p.1.next p.2) p.1.localFree l ∧ l.Nodup ∧ l.Perm (free ++ queue)

/-- `used`, `local_count` and the length of the queue make up the capacity. -/
def Counts (s : State) : Prop :=
  ∃ queue, Chain 0 (s.page.next s.word) s.page.xthreadFree queue ∧
    s.page.used + s.page.localCount + queue.length = s.page.capacity

/-! ## The invariant -/

/-- The blocks `all` of the page are in its list, in its queue, in the owner's hand or live, each
    once, and `used` counts the live ones and those whose free is in flight; these are still in the
    queue. -/
structure Ok (seg : Nat) (all : List Nat) (s : State) (pg : Page) : Prop where
  linked : Linked seg s.word s.page pg
  parts : (pg.localFree ++ (pg.xthreadFree ++ (s.owner.hand ++ s.live))).Perm all
  used : pg.used = s.live.length + s.calls.length
  calls : s.calls.length ≤ pg.xthreadFree.length
  capacity : pg.capacity = all.length

/-- What is known of the blocks of a page. -/
structure Blocks (all : List Nat) : Prop where
  nodup : all.Nodup
  even : ∀ b ∈ all, b ≠ 0 ∧ 2 ∣ b
  short : all.length < 2^31

namespace Ok
variable {seg : Nat} {all : List Nat} {s : State} {pg : Page}

variable (h : Ok seg all s pg)
include h

theorem nodup (hall : Blocks all) :
    (pg.localFree ++ (pg.xthreadFree ++ (s.owner.hand ++ s.live))).Nodup :=
  h.parts.nodup_iff.mpr hall.nodup

theorem length_eq :
    pg.localFree.length + (pg.xthreadFree.length + (s.owner.hand.length + s.live.length)) =
      all.length := by
  simpa only [List.length_append] using h.parts.length_eq

theorem notMem_of_live (hall : Blocks all) {b : Nat} (hb : b ∈ s.live) :
    b ≠ 0 ∧ b ∉ pg.localFree ∧ b ∉ pg.xthreadFree := by
  have hin : b ∈ pg.xthreadFree ++ (s.owner.hand ++ s.live) :=
    List.mem_append_right _ (List.mem_append_right _ hb)
  have hnd := List.nodup_append.mp (h.nodup hall)
  have hnd' := List.nodup_append.mp hnd.2.1
  refine ⟨(hall.even b (h.parts.mem_iff.mp (List.mem_append_right _ hin))).1, fun hf => ?_, fun hq => ?_⟩
  · exact hnd.2.2 b hf b hin rfl
  · exact hnd'.2.2 b hq b (List.mem_append_right _ hb) rfl

theorem drained {fuel : Nat} {s' : State} {owner : Owner}
    (hq : s.page.xthreadFree = 0) (hhand : owner.hand = s.owner.hand)
    (hs : s.drained seg fuel owner = some s') : Ok seg all s' pg := by
  rw [State.drained, drainRemote_empty seg fuel hq] at hs
  obtain rfl := Option.some.inj hs
  exact ⟨h.linked, by rw [hhand]; exact h.parts, h.used, h.calls, h.capacity⟩

theorem pop (hall : Blocks all) (howner : s.owner = .checked)
    (hne : s.page.localFree ≠ 0) :
    ∃ pg', Ok seg all { s with
      page := (popLocal (s.page, s.word)).2.1
      word := (popLocal (s.page, s.word)).2.2
      owner := .popped (popLocal (s.page, s.word)).1 } pg' := by
  obtain ⟨l, hl, -⟩ := h.linked.free.exists_cons hne
  have hnd := List.nodup_append.mp (h.nodup hall)
  have hq : s.page.localFree ∉ pg.xthreadFree := fun hin =>
    hnd.2.2 _ (by rw [hl]; exact List.mem_cons_self ..) _ (List.mem_append_left _ hin) rfl
  have hlen : pg.localFree.length < 2^32 := by
    have := h.length_eq
    have := hall.short
    omega
  obtain ⟨-, hk⟩ := h.linked.pop hl hq hlen
  refine ⟨_, hk, ?_, h.used, h.calls, h.capacity⟩
  have hp := h.parts
  rw [howner, hl] at hp
  -- the block moves from the list to the hand
  exact ((List.perm_middle.append_left l).trans List.perm_middle).trans hp

theorem push (hall : Blocks all) {b : Nat} (hb : b ∈ s.live) :
    ∃ pg', Ok seg all { s with
      page := (pushRemote b (s.page, s.word)).1
      word := (pushRemote b (s.page, s.word)).2
      calls := none :: s.calls
      live := s.live.erase b } pg' := by
  obtain ⟨h0, hf, hq⟩ := h.notMem_of_live hall hb
  refine ⟨_, h.linked.pushRemote h0 hf hq, ?_, ?_, Nat.succ_le_succ h.calls, h.capacity⟩
  · -- the block moves from the live ones to the queue
    have hlive : (b :: s.live.erase b).Perm s.live := (List.perm_cons_erase hb).symm
    have hmid : (b :: (pg.xthreadFree ++ (s.owner.hand ++ s.live.erase b))).Perm
        (pg.xthreadFree ++ (s.owner.hand ++ s.live)) :=
      (List.perm_middle.symm.trans (List.perm_middle.symm.append_left _)).trans
        ((hlive.append_left _).append_left _)
    exact (hmid.append_left _).trans h.parts
  · have hpos := List.length_pos_of_mem hb
    have he := List.length_erase_of_mem hb
    have hu := h.used
    simp only [List.length_cons]
    omega

theorem step (hall : Blocks all) {fuel : Nat} {a : Action} {s' : State}
    (fit : Orderly s a) (exec : step seg fuel s a = some s') : ∃ pg', Ok seg all s' pg' := by
  cases a with
  | enter granted =>
    simp only [RemoteFree.step] at exec
    split at exec
    · cases exec
    · next hidle =>
      have hhand : s.owner.hand = [] := by rw [not_not.mp hidle]; rfl
      split at exec <;> obtain rfl := Option.some.inj exec
      · refine ⟨pg, h.linked, ?_, h.used, h.calls, h.capacity⟩
        have := h.parts
        rwa [hhand] at this
      · exact ⟨pg, h.linked, h.parts, h.used, h.calls, h.capacity⟩
  | check =>
    simp only [RemoteFree.step] at exec
    split at exec
    · next hown => exact ⟨pg, h.drained fit (by rw [hown]; rfl) exec⟩
    · cases exec
  | pop =>
    simp only [RemoteFree.step] at exec
    split at exec
    · cases exec
    · next hown =>
      split at exec <;> obtain rfl := Option.some.inj exec
      · refine ⟨pg, h.linked, ?_, h.used, h.calls, h.capacity⟩
        have := h.parts
        rwa [not_not.mp hown] at this
      · next hne => exact h.pop hall (not_not.mp hown) hne
  | loadUsed =>
    simp only [RemoteFree.step] at exec
    split at exec
    · next b hown =>
      obtain rfl := Option.some.inj exec
      refine ⟨pg, h.linked, ?_, h.used, h.calls, h.capacity⟩
      have := h.parts
      rwa [hown] at this
    · cases exec
  | storeUsed =>
    simp only [RemoteFree.step] at exec
    split at exec
    · next b used hown =>
      obtain rfl := Option.some.inj exec
      refine ⟨_, h.linked.setUsed _, ?_, ?_, h.calls, h.capacity⟩
      · have := h.parts
        rwa [hown] at this
      · have hfit : s.page.used = used := fit b used hown
        have hu := h.used
        have hlu := h.linked.used
        have hle := h.length_eq
        have hcalls := h.calls
        have hshort := hall.short
        simp only [List.length_cons]
        omega
    · cases exec
  | drain =>
    simp only [RemoteFree.step] at exec
    split at exec
    · next hown => exact ⟨pg, h.drained fit (by rw [hown]) exec⟩
    · cases exec
  | write b w =>
    simp only [RemoteFree.step] at exec
    split at exec
    · next hb =>
      obtain rfl := Option.some.inj exec
      obtain ⟨-, hf, hq⟩ := h.notMem_of_live hall hb
      exact ⟨pg, h.linked.frame (fun a ha => Function.update_of_ne (ne_of_mem_of_not_mem ha hf) _ _)
        (fun a ha => Function.update_of_ne (ne_of_mem_of_not_mem ha hq) _ _), h.parts, h.used, h.calls, h.capacity⟩
    · cases exec
  | push b =>
    simp only [RemoteFree.step] at exec
    split at exec
    · next hb =>
      obtain rfl := Option.some.inj exec
      exact h.push hall hb
    · cases exec
  | remoteLoad i =>
    simp only [RemoteFree.step] at exec
    split at exec
    · obtain rfl := Option.some.inj exec
      exact ⟨pg, h.linked, h.parts, by simpa using h.used, by simpa using h.calls, h.capacity⟩
    · cases exec
  | remoteStore i =>
    simp only [RemoteFree.step] at exec
    split at exec
    · next used hi =>
      obtain rfl := Option.some.inj exec
      have hlt : i < s.calls.length := (List.getElem?_eq_some_iff.mp hi).1
      have hcalls := h.calls
      refine ⟨_, h.linked.setUsed _, h.parts, ?_, by simp only [List.length_eraseIdx_of_lt hlt]; omega,
        h.capacity⟩
      show (used + 2^32 - 1) % 2^32 = s.live.length + (s.calls.eraseIdx i).length
      rw [List.length_eraseIdx_of_lt hlt]
      have hfit : s.page.used = used := fit used hi
      have hu := h.used
      have hlu := h.linked.used
      have hle := h.length_eq
      have hshort := hall.short
      omega
    · cases exec

/-- A drain is right exactly if there is nothing to drain. -/
theorem drainsWell_iff (hall : Blocks all) :
    DrainsWell seg s ↔ s.page.xthreadFree = 0 := by
  constructor
  · rintro ⟨fuel, p, -, -, -, hdrain, -⟩
    by_contra hne
    have heven : ∀ b ∈ pg.xthreadFree, 2 ∣ b := fun b hb =>
      (hall.even b (h.parts.mem_iff.mp
        (List.mem_append_right _ (List.mem_append_left _ hb)))).2
    rw [drainRemote_none h.linked heven hne fuel] at hdrain
    cases hdrain
  · intro hq
    refine ⟨0, _, pg.localFree, pg.xthreadFree, pg.localFree, drainRemote_empty seg 0 hq, h.linked.free,
      h.linked.queue, h.linked.free, h.linked.free.nodup, ?_⟩
    rw [h.linked.queue.eq_nil_iff.mpr hq, List.append_nil]

theorem counts (hquiet : s.Quiet) : Counts s := by
  refine ⟨pg.xthreadFree, h.linked.queue, ?_⟩
  obtain ⟨hown, hcalls⟩ := hquiet
  have hlen := h.length_eq
  have hu := h.used
  rw [hown] at hlen
  rw [hcalls] at hu
  rw [h.linked.used, h.linked.count, h.linked.capacity, h.capacity, hu]
  simp only [Owner.hand, List.length_nil] at hlen ⊢
  omega

end Ok

/-! ## Runs -/

theorem freshPage_blocks {seg c : Nat} (tag : Nat) (hseg : segmentSize ∣ seg)
    (hc : c < classCountSmall) : Blocks (freshPage seg (miClassSize c) tag).localFree := by
  obtain ⟨hpos, hle⟩ := miClassSize_bounds hc
  obtain ⟨hok, hnd, -⟩ := freshPage_ok seg tag hpos hle
  refine ⟨hnd, fun b hb => ?_, ?_⟩
  · obtain ⟨i, -, rfl⟩ := hok.blocks b hb
    have h128 : blockOffset = 128 := rfl
    have hsize : 2 ∣ miClassSize c := by
      rw [miClassSize_small hc]
      omega
    have hi : 2 ∣ i * miClassSize c := Dvd.dvd.mul_left hsize i
    have hseg2 : 2 ∣ seg := Nat.dvd_trans (by decide) hseg
    have hbs : (freshPage seg (miClassSize c) tag).blockSize = miClassSize c := rfl
    rw [hbs]
    omega
  · have := blocks_length_le hnd hok.blocks
    have := hok.capacity_lt
    omega

theorem ok_start {seg c : Nat} (tag : Nat) (word : Words) (hc : c < classCountSmall) :
    Ok seg (freshPage seg (miClassSize c) tag).localFree (State.start seg (miClassSize c) tag word)
      (freshPage seg (miClassSize c) tag) := by
  refine ⟨initPage_linked seg tag (miClassSize_bounds hc).1 word, ?_, rfl, Nat.le_refl _, ?_⟩
  · simp [State.start, freshPage, Owner.hand]
  · simp [freshPage]

theorem Reach.ok {seg fuel c tag : Nat} {word : Words} {s : State} (hseg : segmentSize ∣ seg)
    (hc : c < classCountSmall)
    (h : Reach seg fuel Orderly (State.start seg (miClassSize c) tag word) s) :
    ∃ pg, Ok seg (freshPage seg (miClassSize c) tag).localFree s pg := by
  induction h with
  | start => exact ⟨_, ok_start tag word hc⟩
  | step _ a fit exec ih =>
    obtain ⟨pg, hok⟩ := ih
    exact hok.step (freshPage_blocks tag hseg hc) fit exec

/-- In every run in which drains find the queue empty and stores of `used` find it as it was loaded,
    in every state: a drain is right exactly if it finds the queue empty, and with no call in flight
    the counters add up. -/
theorem remote_frees_kept_iff (seg fuel c tag : Nat) (word : Words) (s : State)
    (hseg : segmentSize ∣ seg) (hc : c < classCountSmall)
    (h : Reach seg fuel Orderly (State.start seg (miClassSize c) tag word) s) :
    (DrainsWell seg s ↔ s.page.xthreadFree = 0) ∧ (s.Quiet → Counts s) := by
  obtain ⟨pg, hok⟩ := h.ok hseg hc
  exact ⟨hok.drainsWell_iff (freshPage_blocks tag hseg hc), hok.counts⟩

/-- Take steps one after the other. -/
def steps (seg fuel : Nat) (s : State) (l : List Action) : Option State :=
  l.foldlM (step seg fuel) s

theorem reach_steps {seg fuel : Nat} {s₀ s s' : State} (h : Reach seg fuel (fun _ _ => True) s₀ s)
    {l : List Action} (hl : steps seg fuel s l = some s') : Reach seg fuel (fun _ _ => True) s₀ s' := by
  induction l generalizing s with
  | nil =>
    obtain rfl := Option.some.inj hl
    exact h
  | cons a l ih =>
    obtain ⟨s₁, hs₁, hl⟩ := Option.bind_eq_some_iff.mp hl
    exact ih (h.step a trivial hs₁) hl

/-- What the owner does to allocate a block. -/
def allocate : List Action := [.enter true, .check, .pop, .loadUsed, .storeUsed]

/-- Two blocks are allocated and freed by two threads, which both load `used` before either stores it. -/
def race : List Action := allocate ++ allocate ++ [.push 123008, .push 118912,
  .remoteLoad 0, .remoteLoad 1, .remoteStore 1, .remoteStore 0]

/-- A block is allocated and freed remotely, one step after the other. -/
theorem one_remote_free_kept :
    let s₀ := State.start 65536 (miClassSize 255) 1 (fun _ => 0)
    ∃ s, Reach 65536 0 Orderly s₀ s ∧ s.page.xthreadFree = 123008 ∧ Counts s := by
  intro s₀
  have h0 : Reach 65536 0 Orderly s₀ s₀ := .start
  have h1 := Reach.step h0 (.enter true) trivial rfl
  have h2 := Reach.step h1 .check rfl rfl
  have h3 := Reach.step h2 .pop trivial rfl
  have h4 := Reach.step h3 .loadUsed trivial rfl
  have h5 := Reach.step h4 .storeUsed (fun _ _ h => by cases h; rfl) rfl
  have h6 := Reach.step h5 (.push 123008) trivial rfl
  have h7 := Reach.step h6 (.remoteLoad 0) trivial rfl
  have h8 : Reach 65536 0 Orderly s₀ _ :=
    Reach.step h7 (.remoteStore 0) (fun _ h => by cases h; rfl) rfl
  exact ⟨_, h8, rfl, (remote_frees_kept_iff 65536 0 255 1 (fun _ => 0) _ (by decide) (by decide) h8).2
    ⟨rfl, rfl⟩⟩

/-- One block freed remotely, and the next drain has no result; two blocks freed at the same time,
    and one of the updates of `used` is lost. -/
theorem remote_frees_lost :
    let s₀ := State.start 65536 (miClassSize 255) 1 (fun _ => 0)
    (∃ s, Reach 65536 0 (fun _ _ => True) s₀ s ∧ s.Quiet ∧
      ∀ fuel, drainRemote 65536 fuel (s.page, s.word) = none) ∧
    ∃ s, Reach 65536 0 (fun _ _ => True) s₀ s ∧ s.Quiet ∧ ¬ Counts s := by
  intro s₀
  constructor
  · have hrun : (steps 65536 0 s₀ (allocate ++ [.push 123008, .remoteLoad 0, .remoteStore 0])).map
        (fun s => (s.owner, s.calls, s.page.xthreadFree, s.word 123008 % 2)) =
        some (.idle, [], 123008, 1) := by decide
    obtain ⟨s, hs, hv⟩ := Option.map_eq_some_iff.mp hrun
    simp only [Prod.mk.injEq] at hv
    obtain ⟨hown, hcalls, hq, hodd⟩ := hv
    refine ⟨s, reach_steps .start hs, ⟨hown, hcalls⟩, fun fuel => drainRemote_odd _ _ ?_ ?_⟩
    · show s.page.xthreadFree ≠ 0
      omega
    · show s.word s.page.xthreadFree % 2 = 1
      rw [hq, hodd]
  · have hrun : (steps 65536 0 s₀ race).map
        (fun s => (s.owner, s.calls, s.page.used, s.page.localCount, s.page.capacity)) =
        some (.idle, [], 1, 13, 15) := by decide
    have hlinks : (steps 65536 0 s₀ race).map
        (fun s => (s.page.xthreadFree, s.page.next s.word 118912, s.page.next s.word 123008)) =
        some (118912, 123008, 0) := by decide
    obtain ⟨s, hs, hv⟩ := Option.map_eq_some_iff.mp hrun
    rw [hs] at hlinks
    simp only [Option.map_some, Option.some.injEq, Prod.mk.injEq] at hv hlinks
    obtain ⟨hown, hcalls, hused, hcount, hcap⟩ := hv
    obtain ⟨hq, hnext, hlast⟩ := hlinks
    refine ⟨s, reach_steps .start hs, ⟨hown, hcalls⟩, ?_⟩
    rintro ⟨queue, hqueue, hsum⟩
    have hchain : Chain 0 (s.page.next s.word) s.page.xthreadFree [118912, 123008] :=
      ⟨hq, by decide, hnext, by decide, hlast⟩
    rw [hqueue.unique hchain, hused, hcount, hcap] at hsum
    exact absurd hsum (by decide)

end MyMalloc.Mimalloc.RemoteFree
