import MyMalloc.Classic.Ptmalloc.FreeLists
import MyMalloc.Classic.Ptmalloc.Moves

/- The lists of a tcache (`tcache.cpp`).

   An entry is written over what `user_data` gives, and that is 48 bytes behind the
   start of the chunk: the entry of a chunk of 48 bytes lies on the header of the chunk
   behind it. If that chunk is cached too, its size is gone (`cached_size_lost`). As
   long as no two cached chunks are that close, each bin is a stack of at most seven
   chunks of its size, and the key of a chunk is set exactly while it is in one
   (`tcache_lists_faithful`). -/
namespace MyMalloc.Ptmalloc.Words

open Exec

variable {τ : Type}

/-- The loop of `Tcache::flush`. -/
def clearKeys : Nat → Nat → Exec (State τ) Unit
  | 0, _ => fault
  | fuel + 1, e => do
    if e = 0 then pure ()
    else
      store (e + 8) 0
      let next ← load e
      clearKeys fuel next

def isDoubleFree (mem : Nat → Nat) (e : Nat) : Bool := decide (mem (e + 8) ≠ 0)

inductive TcacheCall where
  | free (size chunk : Nat)
  | alloc (i : Nat)
  | flush (i : Nat)

/-- An entry is given by its address; 0 is null. -/
inductive TcacheAnswer where
  | freed (ok : Bool)
  | entry (e : Nat)

section
variable [DecidableEq τ]

/-- `Tcache::flush`, for an index of a bin. -/
def tcacheFlush (t : τ) (tc : Tcache) (i : Nat) : Exec (State τ) Nat := do
  let limit ← gets State.walkLimit
  setTcache t { bins := Function.update tc.bins i 0
                count := Function.update tc.count i 0 }
  clearKeys limit (tc.bins i)
  pure (tc.bins i)

/-- A call on the tcache of a thread; in a `free` the bin is `csize2tidx` of the size. -/
def TcacheCall.exec (t : τ) (call : TcacheCall) : Exec (State τ) TcacheAnswer := do
  match ← gets (fun s => s.tcache t) with
  | none => fault
  | some tc =>
    match call with
    | .free size chunk =>
      if tcacheMaxBins ≤ csize2tidx size then pure (.freed false)
      else
        let ok ← tcacheFree t tc (csize2tidx size) chunk
        pure (.freed ok)
    | .alloc i =>
      if tcacheMaxBins ≤ i then pure (.entry 0)
      else
        let e ← tcacheAlloc t tc i
        pure (.entry (e.getD 0))
    | .flush i =>
      if tcacheMaxBins ≤ i then pure (.entry 0)
      else
        let e ← tcacheFlush t tc i
        pure (.entry e)

end

/-! ## The calls on lists -/

/-- The lists of chunks after a call. -/
def TcacheCall.lists (L : Nat → List Nat) : TcacheCall → Nat → List Nat
  | .free size c => if (L (csize2tidx size)).length < tcacheFillCount then
      Function.update L (csize2tidx size) (c :: L (csize2tidx size)) else L
  | .alloc i => Function.update L i (L i).tail
  | .flush i => Function.update L i []

/-- What a call answers. -/
def TcacheCall.Answers (L : Nat → List Nat) (s s' : State τ) (a : TcacheAnswer) : TcacheCall → Prop
  | .free size _ => a = .freed (decide ((L (csize2tidx size)).length < tcacheFillCount)) ∧
      (tcacheFillCount ≤ (L (csize2tidx size)).length → s' = s)
  | .alloc i => a = .entry (((L i).map (· + chunkHeader)).headD 0) ∧
      ∀ c ∈ (L i).take 1, isDoubleFree s'.mem (c + chunkHeader) = false
  | .flush i => ∃ e, a = .entry e ∧ Chain 0 s'.mem e ((L i).map (· + chunkHeader)) ∧
      ∀ c ∈ L i, isDoubleFree s'.mem (c + chunkHeader) = false

/-- A chunk of `size` bytes that is not cached. -/
structure Freeable (s : State τ) (L : Nat → List Nat) (size c : Nat) : Prop where
  range : 16 ∣ size ∧ 32 ≤ size ∧ size ≤ 1040
  head : sizeBits (s.mem (c + 8)) = size
  chunk : 16 ∣ c ∧ c ≠ 0
  mapped : s.mapped (c + chunkHeader) = true ∧ s.mapped (c + chunkHeader + 8) = true
  out : ∀ i, c ∉ L i

def TcacheCall.Allowed (s : State τ) (L : Nat → List Nat) : TcacheCall → Prop
  | .free size c => Freeable s L size c
  | _ => True

/-- No chunk is cached 48 bytes before or behind one that comes in. -/
def TcacheCall.Clear (L : Nat → List Nat) : TcacheCall → Prop
  | .free _ c => ∀ i, ∀ d ∈ L i, d ≠ c + 48 ∧ c ≠ d + 48
  | _ => True

/-- Runs from a new tcache. Between the calls, the words that are neither headers nor entries of cached chunks
    may change. -/
inductive TcacheRun [DecidableEq τ] (t : τ) (fits : State τ → (Nat → List Nat) → TcacheCall → Prop) :
    State τ → (Nat → List Nat) → Prop where
  | start {s : State τ} (h : s.tcache t = some emptyTcache) : TcacheRun t fits s (fun _ => [])
  | call {s s' : State τ} {L : Nat → List Nat} {a : TcacheAnswer} (before : TcacheRun t fits s L) (c : TcacheCall)
      (fit : fits s L c) (run : c.exec t s = some (a, s')) : TcacheRun t fits s' (c.lists L)
  | write {s : State τ} {L : Nat → List Nat} (before : TcacheRun t fits s L) (a v : Nat)
      (off : ∀ i, ∀ c ∈ L i, a ≠ c + 8 ∧ a ≠ c + chunkHeader ∧ a ≠ c + chunkHeader + 8) :
      TcacheRun t fits { s with mem := Function.update s.mem a v } L

/-- The bins of a tcache are these lists of chunks, each with the size of its bin. -/
structure TcacheOk (mem : Nat → Nat) (tc : Tcache) (L : Nat → List Nat) : Prop where
  chain : ∀ i, Chain 0 mem (tc.bins i) ((L i).map (· + chunkHeader))
  count : ∀ i, tc.count i = (L i).length ∧ (L i).length ≤ tcacheFillCount
  nodup : ∀ i, (L i).Nodup
  once : ∀ i j c, c ∈ L i → c ∈ L j → i = j
  key : ∀ i, ∀ c ∈ L i, isDoubleFree mem (c + chunkHeader) = true
  size : ∀ i, ∀ c ∈ L i, sizeBits (mem (c + 8)) = 16 * (i + 2)

/-! ## The invariant -/

/-- A cached chunk with its header and its entry. -/
structure CachedChunk (mapped : Nat → Bool) (mem : Nat → Nat) (i c : Nat) : Prop where
  index : i < tcacheMaxBins
  aligned : 16 ∣ c
  mapped : mapped (c + chunkHeader) = true ∧ mapped (c + chunkHeader + 8) = true
  key : mem (c + chunkHeader + 8) ≠ 0
  size : sizeBits (mem (c + 8)) = 16 * (i + 2)

/-- No chunk is in two bins, or cached 48 bytes behind another. -/
structure Spread (L : Nat → List Nat) : Prop where
  once : ∀ i j c, c ∈ L i → c ∈ L j → i = j
  behind : ∀ i j c, c ∈ L i → c + 48 ∉ L j

structure TcacheInv (mapped : Nat → Bool) (mem : Nat → Nat) (tc : Tcache) (L : Nat → List Nat) : Prop where
  chain : ∀ i, Chain 0 mem (tc.bins i) ((L i).map (· + chunkHeader))
  count : ∀ i, tc.count i = (L i).length
  limit : ∀ i, (L i).length ≤ tcacheFillCount
  spread : Spread L
  chunk : ∀ i, ∀ c ∈ L i, CachedChunk mapped mem i c

/-- The words of a cached chunk are as before. -/
def SameWords (mem mem' : Nat → Nat) (c : Nat) : Prop :=
  mem' (c + 8) = mem (c + 8) ∧ mem' (c + chunkHeader) = mem (c + chunkHeader) ∧
    mem' (c + chunkHeader + 8) = mem (c + chunkHeader + 8)

section
variable {mapped : Nat → Bool} {mem mem' : Nat → Nat} {tc : Tcache} {L L' : Nat → List Nat} {l : List Nat}
  {i c d : Nat}

theorem CachedChunk.congr (h : CachedChunk mapped mem i c) (e : SameWords mem mem' c) : CachedChunk mapped mem' i c :=
  { h with
    key := e.2.2 ▸ h.key
    size := e.1 ▸ h.size }

/-- Writes to entries spare the words of the chunks that do not begin 48 bytes behind. -/
theorem sameWords_of
    (hmem : ∀ x, (∀ c ∈ l, x ≠ c + chunkHeader ∧ x ≠ c + chunkHeader + 8) → mem' x = mem x) (hd : 16 ∣ d)
    (hoff : ∀ c ∈ l, 16 ∣ c ∧ d ≠ c ∧ d ≠ c + 48) : SameWords mem mem' d := by
  have h48 : chunkHeader = 48 := rfl
  have hword : ∀ k, k = 8 ∨ k = chunkHeader ∨ k = chunkHeader + 8 → mem' (d + k) = mem (d + k) := fun k hk =>
    hmem _ fun c hc => by
      have := hoff c hc
      omega
  exact ⟨hword 8 (.inl rfl), hword chunkHeader (.inr (.inl rfl)), hword (chunkHeader + 8) (.inr (.inr rfl))⟩

theorem chain_congr {head : Nat} (h : Chain 0 mem head (l.map (· + chunkHeader)))
    (e : ∀ c ∈ l, SameWords mem mem' c) : Chain 0 mem' head (l.map (· + chunkHeader)) := by
  refine h.congr fun a ha => ?_
  obtain ⟨c, hc, rfl⟩ := List.mem_map.mp ha
  exact (e c hc).2.1

theorem Spread.mono (h : Spread L) (hsub : ∀ i, ∀ c ∈ L' i, c ∈ L i) : Spread L' where
  once i j c hi hj := h.once i j c (hsub i c hi) (hsub j c hj)
  behind i j c hi hj := h.behind i j c (hsub i c hi) (hsub j _ hj)

theorem Spread.push (h : Spread L) (hout : ∀ j, c ∉ L j) (hclear : ∀ j, ∀ d ∈ L j, d ≠ c + 48 ∧ c ≠ d + 48) :
    Spread (Function.update L i (c :: L i)) := by
  -- a listed chunk is the new one or was listed before
  have hcases : ∀ {j d}, d ∈ Function.update L i (c :: L i) j → (j = i ∧ d = c) ∨ d ∈ L j := fun {j d} hd => by
    rcases mem_update hd with ⟨rfl, hd⟩ | ⟨-, hd⟩
    · exact (List.mem_cons.mp hd).imp_left fun e => ⟨rfl, e⟩
    · exact .inr hd
  constructor
  · intro j k d hj hk
    rcases hcases hj with ⟨hi, rfl⟩ | hj <;> rcases hcases hk with ⟨hi', e⟩ | hk
    · exact hi.trans hi'.symm
    · exact absurd hk (hout k)
    · exact absurd (e ▸ hj) (hout j)
    · exact h.once j k d hj hk
  · intro j k d hj hk
    rcases hcases hj with ⟨-, rfl⟩ | hj <;> rcases hcases hk with ⟨-, e⟩ | hk
    · omega
    · exact (hclear k _ hk).1 rfl
    · exact (hclear j d hj).2 e.symm
    · exact h.behind j k d hj hk

theorem update_subset (hsub : ∀ c ∈ l, c ∈ L i) (j : Nat) : ∀ c ∈ Function.update L i l j, c ∈ L j := fun c hc => by
  rcases mem_update hc with ⟨rfl, hl⟩ | ⟨-, hL⟩
  · exact hsub c hl
  · exact hL

theorem TcacheInv.setBin (h : TcacheInv mapped mem tc L) {head : Nat} (hspread : Spread (Function.update L i l))
    (hkeep : ∀ j ≠ i, ∀ c ∈ L j, SameWords mem mem' c) (hchain : Chain 0 mem' head (l.map (· + chunkHeader)))
    (hlimit : l.length ≤ tcacheFillCount) (hchunk : ∀ c ∈ l, CachedChunk mapped mem' i c) :
    TcacheInv mapped mem' (tc.set i head l.length) (Function.update L i l) where
  chain j := by
    change Chain 0 mem' (Function.update tc.bins i head j) _
    by_cases hj : j = i
    · subst hj
      rw [Function.update_self, Function.update_self]
      exact hchain
    · rw [Function.update_of_ne hj, Function.update_of_ne hj]
      exact chain_congr (h.chain j) (hkeep j hj)
  count j := by
    change Function.update tc.count i l.length j = _
    by_cases hj : j = i
    · subst hj
      rw [Function.update_self, Function.update_self]
    · rw [Function.update_of_ne hj, Function.update_of_ne hj]
      exact h.count j
  limit := (Function.forall_update_iff L fun _ l => l.length ≤ tcacheFillCount).mpr ⟨hlimit, fun j _ => h.limit j⟩
  spread := hspread
  chunk := (Function.forall_update_iff L fun j l => ∀ c ∈ l, CachedChunk mapped mem' j c).mpr
    ⟨hchunk, fun j hj c hc => (h.chunk j c hc).congr (hkeep j hj c hc)⟩

theorem TcacheInv.nodup (h : TcacheInv mapped mem tc L) (i : Nat) : (L i).Nodup := (h.chain i).nodup.of_map

theorem TcacheInv.beyond (h : TcacheInv mapped mem tc L) (hi : tcacheMaxBins ≤ i) : L i = [] := by
  by_contra hne
  obtain ⟨c, hc⟩ := List.exists_mem_of_ne_nil _ hne
  exact absurd (h.chunk i c hc).index (Nat.not_lt.mpr hi)

end

/-! ## The calls -/

/-- Memory after the keys of the chunks are cleared. -/
def clearedMem (mem : Nat → Nat) (l : List Nat) : Nat → Nat :=
  l.foldl (fun m c => Function.update m (c + chunkHeader + 8) 0) mem

theorem clearedMem_of_ne {mem : Nat → Nat} {l : List Nat} {a : Nat} (h : ∀ c ∈ l, a ≠ c + chunkHeader + 8) :
    clearedMem mem l a = mem a := by
  induction l generalizing mem with
  | nil => rfl
  | cons b l ih =>
    have hb := h b List.mem_cons_self
    exact (ih fun c hc => h c (List.mem_cons_of_mem _ hc)).trans (Function.update_of_ne hb ..)

theorem clearedMem_key {mem : Nat → Nat} {l : List Nat} {c : Nat} (hc : c ∈ l) :
    clearedMem mem l (c + chunkHeader + 8) = 0 := by
  induction l generalizing mem with
  | nil => cases hc
  | cons b l ih =>
    by_cases hl : c ∈ l
    · exact ih hl
    · obtain rfl := (List.mem_cons.mp hc).resolve_right hl
      have hother : ∀ d ∈ l, c + chunkHeader + 8 ≠ d + chunkHeader + 8 := fun d hd e => by
        obtain rfl : c = d := by omega
        exact hl hd
      exact (clearedMem_of_ne hother).trans (Function.update_self ..)

section
variable {s : State τ} {t : τ} {tc : Tcache} {L : Nat → List Nat} {i c : Nat}

theorem clearKeys_run {l : List Nat} {fuel e : Nat} (hl : ∀ c ∈ l, CachedChunk s.mapped mem₀ i c)
    (hc : Chain 0 s.mem e (l.map (· + chunkHeader))) (hf : l.length < fuel) :
    clearKeys fuel e s = some ((), { s with mem := clearedMem s.mem l }) := by
  induction l generalizing fuel e s with
  | nil =>
    obtain rfl : e = 0 := hc
    obtain ⟨fuel, rfl⟩ : ∃ m, fuel = m + 1 := ⟨fuel - 1, by simp at hf; omega⟩
    rw [clearKeys, if_pos rfl]
    rfl
  | cons c l ih =>
    obtain ⟨rfl, hne, htail⟩ := hc
    obtain ⟨fuel, rfl⟩ : ∃ m, fuel = m + 1 := ⟨fuel - 1, by simp at hf; omega⟩
    have hcc := hl c List.mem_cons_self
    have hnext : Function.update s.mem (c + chunkHeader + 8) 0 (c + chunkHeader) = s.mem (c + chunkHeader) :=
      Function.update_of_ne (by omega) ..
    rw [clearKeys, if_neg hne, bind_run (store_run hcc.mapped.2), bind_run (load_run (by exact hcc.mapped.1))]
    dsimp only
    rw [hnext]
    refine ih (fun d hd => hl d (List.mem_cons_of_mem _ hd)) (htail.congr fun a ha => ?_) (by simpa using hf)
    obtain ⟨d, hd, rfl⟩ := List.mem_map.mp ha
    have hdc := (hl d (List.mem_cons_of_mem _ hd)).aligned
    have := hcc.aligned
    exact Function.update_of_ne (by omega) ..

variable [DecidableEq τ]

/-- The call has a result: the lists and the answer are those of the lists before. -/
def TcacheCall.Does (t : τ) (s : State τ) (L : Nat → List Nat) (call : TcacheCall) : Prop :=
  ∃ a s' tc, call.exec t s = some (a, s') ∧ s'.tcache t = some tc ∧ TcacheInv s'.mapped s'.mem tc (call.lists L) ∧
    call.Answers L s s' a

theorem TcacheInv.does_free (h : TcacheInv s.mapped s.mem tc L) (ht : s.tcache t = some tc) {size : Nat}
    (hok : Freeable s L size c) (hclear : (TcacheCall.free size c).Clear L) : (TcacheCall.free size c).Does t s L := by
  have h64 : tcacheMaxBins = 64 := rfl
  have h48 : chunkHeader = 48 := rfl
  have hsz := hok.range
  have hi := csize2tidx_eq hsz.2.1 (by omega)
  unfold TcacheCall.Does TcacheCall.exec
  rw [gets_bind, ht]
  dsimp only [TcacheCall.lists, TcacheCall.Answers]
  generalize csize2tidx size = i at hi ⊢
  rw [if_neg (by omega)]
  unfold tcacheFree
  by_cases hroom : (L i).length < tcacheFillCount
  · let mem' := Function.update (Function.update s.mem (c + chunkHeader) (tc.bins i)) (c + chunkHeader + 8) c
    have hmem : ∀ x, x ≠ c + chunkHeader → x ≠ c + chunkHeader + 8 → mem' x = s.mem x := fun x h1 h2 =>
      (Function.update_of_ne h2 ..).trans (Function.update_of_ne h1 ..)
    have hlink : mem' (c + chunkHeader) = tc.bins i :=
      (Function.update_of_ne (by omega) ..).trans (Function.update_self ..)
    have hkey : mem' (c + chunkHeader + 8) = c := Function.update_self ..
    have hkeep : ∀ j, ∀ d ∈ L j, SameWords s.mem mem' d := fun j d hd =>
      sameWords_of (l := [c]) (fun x hx => hmem x (hx c (by simp)).1 (hx c (by simp)).2) (h.chunk j d hd).aligned
        fun b hb => by
          obtain rfl := List.mem_singleton.mp hb
          exact ⟨hok.chunk.1, fun e => hok.out j (e ▸ hd), (hclear j d hd).1⟩
    have hchunk : ∀ d ∈ c :: L i, CachedChunk s.mapped mem' i d := fun d hd => by
      rcases List.mem_cons.mp hd with rfl | hd
      · refine ⟨by omega, hok.chunk.1, hok.mapped, fun e => hok.chunk.2 (hkey.symm.trans e), ?_⟩
        rw [hmem _ (by omega) (by omega), hok.head]
        omega
      · exact (h.chunk i d hd).congr (hkeep i d hd)
    have hcount : ¬ tcacheFillCount ≤ tc.count i := by
      rw [h.count i]
      omega
    rw [if_pos hroom, if_neg hcount, decide_eq_true hroom]
    refine ⟨_, { s with mem := mem', tcache := Function.update s.tcache t _ }, _, ?_, Function.update_self ..,
      h.setBin (h.spread.push hok.out hclear) (fun j _ => hkeep j) ⟨rfl, Nat.ne_of_gt (Nat.add_pos_right c (by decide)), ?_⟩ hroom hchunk, rfl, fun hfull => by omega⟩
    · rw [List.length_cons, ← h.count i]
      exact bind_run ((bind_run (store_run hok.mapped.1)).trans (bind_run (store_run (by exact hok.mapped.2))))
    · have htail := chain_congr (h.chain i) (hkeep i)
      rwa [← hlink] at htail
  · rw [if_neg hroom, decide_eq_false hroom, h.count, if_pos (Nat.not_lt.mp hroom)]
    exact ⟨_, s, tc, rfl, ht, h, rfl, fun _ => rfl⟩

theorem TcacheInv.does_alloc (h : TcacheInv s.mapped s.mem tc L) (ht : s.tcache t = some tc) (i : Nat) :
    (TcacheCall.alloc i).Does t s L := by
  unfold TcacheCall.Does TcacheCall.exec
  rw [gets_bind, ht]
  dsimp only [TcacheCall.lists, TcacheCall.Answers]
  have hchain := h.chain i
  cases hl : L i with
  | nil =>
    have h0 : tc.bins i = 0 := by rwa [hl] at hchain
    have hrun : tcacheAlloc t tc i s = some (none, s) := by
      rw [tcacheAlloc, if_pos h0]
      rfl
    refine ⟨.entry 0, s, tc, ?_, ht, ?_, rfl, nofun⟩
    · split
      · rfl
      · exact bind_run hrun
    · rw [List.tail_nil, ← hl, Function.update_eq_self]
      exact h
  | cons c l =>
    rw [hl] at hchain
    obtain ⟨hhead, hne, htail⟩ := hchain
    have hi : ¬ tcacheMaxBins ≤ i := fun hi => nomatch (h.beyond hi).symm.trans hl
    have hci : c ∈ L i := hl ▸ List.mem_cons_self
    have hsub : ∀ d ∈ l, d ∈ L i := fun d hd => hl ▸ List.mem_cons_of_mem _ hd
    have hc := h.chunk i c hci
    have hdec : (tc.count i + (2^32 - 1)) % 2^32 = l.length := by
      have hcount := h.count i
      have hlen := h.limit i
      have : tcacheFillCount = 7 := rfl
      rw [hl, List.length_cons] at hcount hlen
      omega
    have hkeep : ∀ j, ∀ d ∈ L j, d ≠ c → SameWords s.mem (Function.update s.mem (c + chunkHeader + 8) 0) d :=
      fun j d hd hdc => sameWords_of (l := [c]) (fun x hx => Function.update_of_ne (hx c (by simp)).2 ..)
        (h.chunk j d hd).aligned fun b hb => by
          obtain rfl := List.mem_singleton.mp hb
          exact ⟨hc.aligned, hdc, fun e => h.spread.behind i j b hci (e ▸ hd)⟩
    have hrest : ∀ d ∈ l, SameWords s.mem (Function.update s.mem (c + chunkHeader + 8) 0) d := fun d hd =>
      hkeep i d (hsub d hd) fun e => (List.nodup_cons.mp (hl ▸ h.nodup i)).1 (e ▸ hd)
    rw [if_neg hi]
    refine ⟨_, { s with mem := Function.update s.mem (c + chunkHeader + 8) 0
                        tcache := Function.update s.tcache t _ }, _, ?_, Function.update_self ..,
      h.setBin (h.spread.mono (update_subset hsub)) (fun j hj d hd => hkeep j d hd fun e => hj ?_)
        (chain_congr htail hrest) ?_ fun d hd => (h.chunk i d (hsub d hd)).congr (hrest d hd), rfl, fun d hd => ?_⟩
    · have hrun : tcacheAlloc t tc i s = some (some (c + chunkHeader),
          { s with mem := Function.update s.mem (c + chunkHeader + 8) 0
                   tcache := Function.update s.tcache t (some (tc.set i (s.mem (c + chunkHeader)) l.length)) }) := by
        unfold tcacheAlloc
        rw [if_neg (hhead ▸ hne), hhead, hdec]
        exact (bind_run (load_run hc.mapped.1)).trans (bind_run (store_run (by exact hc.mapped.2)))
      exact bind_run hrun
    · exact h.spread.once j i d hd (e ▸ hci)
    · have := h.limit i
      rw [hl, List.length_cons] at this
      exact Nat.le_of_succ_le this
    · obtain rfl := List.mem_singleton.mp hd
      exact decide_eq_false (not_not.mpr (Function.update_self ..))

theorem TcacheInv.does_flush (h : TcacheInv s.mapped s.mem tc L) (ht : s.tcache t = some tc) (i : Nat) :
    (TcacheCall.flush i).Does t s L := by
  unfold TcacheCall.Does TcacheCall.exec
  rw [gets_bind, ht]
  dsimp only [TcacheCall.lists, TcacheCall.Answers]
  by_cases hi : tcacheMaxBins ≤ i
  · rw [if_pos hi, ← h.beyond hi, Function.update_eq_self, h.beyond hi]
    exact ⟨_, s, tc, rfl, ht, h, 0, rfl, rfl, nofun⟩
  · have hlen : (L i).length < s.walkLimit := by
      have := s.length_lt_walkLimit (h.chain i).nodup fun a ha => by
        obtain ⟨c, hc, rfl⟩ := List.mem_map.mp ha
        have hcc := h.chunk i c hc
        have h48 : chunkHeader = 48 := rfl
        exact ⟨hcc.mapped.1, by have := hcc.aligned; omega⟩
      simpa using this
    have hclear := clearKeys_run (s := { s with tcache := Function.update s.tcache t (some (tc.set i 0 0)) })
      (fun c hc => h.chunk i c hc) (h.chain i) hlen
    have hkeep : ∀ j ≠ i, ∀ d ∈ L j, SameWords s.mem (clearedMem s.mem (L i)) d := fun j hj d hd =>
      sameWords_of (fun x hx => clearedMem_of_ne fun c hc => (hx c hc).2) (h.chunk j d hd).aligned fun c hc =>
        ⟨(h.chunk i c hc).aligned, fun e => hj (h.spread.once j i c (e ▸ hd) hc),
          fun e => h.spread.behind i j c hc (e ▸ hd)⟩
    rw [if_neg hi]
    refine ⟨_, { s with mem := clearedMem s.mem (L i), tcache := _ }, _,
      bind_run ((gets_bind ..).trans ((bind_run rfl).trans (bind_run hclear))), Function.update_self ..,
      h.setBin (l := []) (h.spread.mono (update_subset nofun)) hkeep rfl (Nat.zero_le _) nofun, _, rfl, ?_, fun c hc => ?_⟩
    · refine (h.chain i).congr fun a ha => ?_
      obtain ⟨d, hd, rfl⟩ := List.mem_map.mp ha
      refine clearedMem_of_ne fun c hc => ?_
      have := (h.chunk i d hd).aligned
      have := (h.chunk i c hc).aligned
      omega
    · exact decide_eq_false (not_not.mpr (clearedMem_key hc))

theorem TcacheInv.does (h : TcacheInv s.mapped s.mem tc L) (ht : s.tcache t = some tc) {call : TcacheCall}
    (hok : call.Allowed s L) (hclear : call.Clear L) : call.Does t s L := by
  cases call with
  | free size c => exact h.does_free ht hok hclear
  | alloc i => exact h.does_alloc ht i
  | flush i => exact h.does_flush ht i

/-! ## Runs -/

theorem TcacheRun.cached (h : TcacheRun t (fun s L c => c.Allowed s L ∧ c.Clear L) s L) :
    ∃ tc, s.tcache t = some tc ∧ TcacheInv s.mapped s.mem tc L := by
  induction h with
  | start h => exact ⟨_, h, fun _ => rfl, fun _ => rfl, fun _ => Nat.zero_le _, ⟨nofun, nofun⟩, nofun⟩
  | call before c fit run ih =>
    obtain ⟨tc, ht, hc⟩ := ih
    obtain ⟨a, s', tc', hrun, ht', hc', -⟩ := hc.does ht fit.1 fit.2
    obtain ⟨-, rfl⟩ := Prod.mk.inj (Option.some.inj (run.symm.trans hrun))
    exact ⟨tc', ht', hc'⟩
  | @write s L before a v off ih =>
    obtain ⟨tc, ht, hc⟩ := ih
    have hkeep : ∀ i, ∀ c ∈ L i, SameWords s.mem (Function.update s.mem a v) c := fun i c hci =>
      have hoff := off i c hci
      ⟨Function.update_of_ne hoff.1.symm .., Function.update_of_ne hoff.2.1.symm ..,
        Function.update_of_ne hoff.2.2.symm ..⟩
    exact ⟨tc, ht, { hc with
      chain := fun i => chain_congr (hc.chain i) (hkeep i)
      chunk := fun i c hci => (hc.chunk i c hci).congr (hkeep i c hci) }⟩

/-- In every run in which no chunk is cached 48 bytes before or behind one that comes in, in every state: the bins
    are stacks of chunks of their sizes, and every such call does to them what it does to lists. -/
theorem tcache_lists_faithful (h : TcacheRun t (fun s L c => c.Allowed s L ∧ c.Clear L) s L) :
    (∃ tc, s.tcache t = some tc ∧ TcacheOk s.mem tc L) ∧
      ∀ call : TcacheCall, call.Allowed s L → call.Clear L →
        ∃ a s', call.exec t s = some (a, s') ∧ call.Answers L s s' a := by
  obtain ⟨tc, ht, hc⟩ := h.cached
  refine ⟨⟨tc, ht, hc.chain, fun i => ⟨hc.count i, hc.limit i⟩, hc.nodup, hc.spread.once, fun i c hci => ?_,
    fun i c hci => (hc.chunk i c hci).size⟩, fun call hok hclear => ?_⟩
  · exact decide_eq_true (hc.chunk i c hci).key
  · obtain ⟨a, s', -, hrun, -, -, hans⟩ := hc.does ht hok hclear
    exact ⟨a, s', hrun, hans⟩

/-- A chunk of 48 bytes with one of 64 bytes behind it. -/
def twoChunks : State Unit :=
  { boot ⟨fun _ => none, 0⟩ with
    mem := Function.update (Function.update (fun _ => 0) 4104 49) 4152 65
    regions := [⟨4096, 4096⟩]
    tcache := fun _ => some emptyTcache }

theorem twoChunks_freeable : Freeable twoChunks (fun _ => []) 64 4144 :=
  ⟨by decide, by decide, by decide, by decide, nofun⟩

theorem tcache_lists_one : ∃ s : State Unit, ∃ tc, s.tcache () = some tc ∧
    TcacheOk s.mem tc ((TcacheCall.free 64 4144).lists fun _ => []) := by
  have hrun : ∃ s, TcacheRun () (fun s L c => c.Allowed s L ∧ c.Clear L) s ((TcacheCall.free 64 4144).lists fun _ => []) :=
    ⟨_, .call (.start (s := twoChunks) rfl) (.free 64 4144) ⟨twoChunks_freeable, nofun⟩ rfl⟩
  obtain ⟨s, hrun⟩ := hrun
  exact ⟨s, (tcache_lists_faithful hrun).1⟩

/-- The chunk of 64 bytes is cached first, then the one in front of it, whose key is now its header. -/
theorem cached_size_lost : ∃ (s : State Unit) (L : Nat → List Nat),
    TcacheRun () (fun s L c => c.Allowed s L) s L ∧ 4144 ∈ L 2 ∧ sizeBits (s.mem (4144 + 8)) = 4096 :=
  ⟨_, _, .call (.call (.start (s := twoChunks) rfl) (.free 64 4144) twoChunks_freeable rfl) (.free 48 4096)
    ⟨by decide, by decide, by decide, by decide, fun i hi => by
      rcases mem_update (show 4096 ∈ Function.update (fun _ => []) 2 [4144] i from hi) with ⟨-, hi⟩ | ⟨-, hi⟩
      · exact absurd (List.mem_singleton.mp hi) (by decide)
      · exact nomatch hi⟩ rfl, by decide, by decide⟩

end

end MyMalloc.Ptmalloc.Words
