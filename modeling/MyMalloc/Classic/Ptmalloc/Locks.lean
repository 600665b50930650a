import MyMalloc.Lib.LockDiscipline
import MyMalloc.Classic.Ptmalloc.Sizes
import Mathlib.Data.Fintype.EquivFin

/- The arena locks of `pt_malloc` (`ptmalloc.cpp`, `arena_manager.cpp`).

   The model keeps what `pt_malloc` does with arenas and their mutexes, and asks
   for the rest: whether a bin has a chunk, whether memory was got, whether
   another thread holds a mutex. Every read or write of an arena's bins or top is
   an `access` to it.

   One path breaks the discipline. A thread without an arena of its own locks the
   main arena before it calls `get_arena`, for a request that may come from a
   fastbin; `get_arena` then fails to lock the main arena a second time, and either
   returns a new arena, and the main arena stays locked for good, or blocks on a
   mutex the thread itself holds. -/
namespace MyMalloc.Ptmalloc

open LockProg

/-- Arenas by number; the first is the main arena. -/
def mainArena : Nat := 0

/-- What is asked: for a new arena, and for any other fact that decides a branch. -/
inductive Question where
  | newArena
  | branch

def Question.Answer : Question → Type
  | .newArena => Option Nat
  | .branch => Bool

/-- A new arena is none that exists. -/
def Question.Fits : (q : Question) → q.Answer → Finset Nat → Prop
  | .newArena, r, H => ∀ av, r = some av → av ≠ mainArena ∧ av ∉ H
  | .branch, _, _ => True

abbrev ArenaProg (α : Type) : Type := LockProg Nat Question.Answer α

/-- Any fact of the state that decides a branch. -/
def branch : ArenaProg Bool := ask Question.branch

/-- A new arena, or none for want of memory. -/
def freshArena : ArenaProg (Option Nat) := ask Question.newArena

/-- What a call finds: whether `pt_malloc_init` has run, the thread's arena, whether its tcache
    has a valid chunk for the request, and the number of arenas. -/
structure Situation where
  initialised : Bool
  threadArena : Option Nat
  cached : Bool
  narenas : Nat
  deriving DecidableEq, Repr

/-- `new_arena`, which also fills in the bins and the top chunk of the arena. -/
def newArena (narenas : Nat) : ArenaProg (Option Nat × Nat) := do
  if maxArenas ≤ narenas then pure (none, narenas)
  else match ← freshArena with
    | none => pure (none, narenas)
    | some av => do
      build av
      pure (some av, narenas + 1)

/-- Whether the thread's arena is one of its own, and could be locked. -/
def tryOwn : Option Nat → ArenaProg (Option Nat)
  | none => pure none
  | some av => do
    if av = mainArena then pure none
    else if ← trylock av then pure (some av) else pure none

/-- `get_arena`: a locked arena, and `thread_arena` after it. The list of arenas for reuse is
    always empty, nothing is ever put on it. -/
def getArena (threadArena : Option Nat) (narenas : Nat) :
    ArenaProg (Nat × Option Nat × Nat) := do
  match ← tryOwn threadArena with
  | some av => pure (av, threadArena, narenas)
  | none =>
    if ← trylock mainArena then pure (mainArena, threadArena, narenas)
    else
      let (new, narenas) ← newArena narenas
      match new with
      | some av => do
        lock av
        pure (av, some av, narenas)
      | none => do
        lock mainArena
        pure (mainArena, threadArena, narenas)

/-- Strategy 2, fastbins: whether a chunk was found, and `thread_arena` after it. The index is
    always one of a fastbin here. -/
def fastbins (threadArena : Option Nat) (narenas : Nat) : ArenaProg (Bool × Option Nat × Nat) := do
  if threadArena = none then
    if ← trylock mainArena then pure () else lock mainArena
  let (av, threadArena, narenas) ← getArena threadArena narenas
  access av
  let found ← branch
  unlock av
  pure (found, threadArena, narenas)

/-- The arena for strategies 3 to 7, locked. -/
def lockArena (threadArena : Option Nat) (narenas : Nat) : ArenaProg Nat := do
  match threadArena with
  | none =>
    let (av, _, _) ← getArena none narenas
    pure av
  | some av =>
    if ← trylock av then pure av
    else
      let (av, _, _) ← getArena (some av) narenas
      pure av

/-- Strategies 3 to 7: small bins, consolidation and the unsorted bin, large bins, the top
    chunk, and new memory. -/
def allocFrom (av nb : Nat) : ArenaProg Unit := do
  let small ← if nb < minLargeSize then do
      access av
      branch
    else pure false
  if small then pure ()
  else
    access av
    if ← branch then pure ()
    else
      let large ← if minLargeSize ≤ nb then do
          access av
          branch
        else pure false
      if large then pure ()
      else
        access av
        if ← branch then pure ()
        -- a direct mapping or a refused one leaves the arena alone
        else if ← branch then access av

/-- `pt_malloc` after the fastbins, if no chunk was found there. -/
def binsAndTop (nb : Nat) : Bool × Option Nat × Nat → ArenaProg Unit
  | (true, _, _) => pure ()
  | (false, threadArena, narenas) => do
    let av ← lockArena threadArena narenas
    allocFrom av nb
    unlock av

/-- `pt_malloc` after the tcache: strategies 2 to 7. -/
def arenaAlloc (threadArena : Option Nat) (narenas nb : Nat) : ArenaProg Unit :=
  if nb ≤ maxFastSize then fastbins threadArena narenas >>= binsAndTop nb
  else binsAndTop nb (false, threadArena, narenas)

/-- `pt_malloc_init` fills in the main arena, once. -/
def ptMallocInit (initialised : Bool) : ArenaProg Unit :=
  if initialised then pure () else build mainArena

def ptMalloc (s : Situation) (n : Nat) : ArenaProg Unit := do
  ptMallocInit s.initialised
  if s.cached then pure () else arenaAlloc s.threadArena s.narenas (request2size n)

variable {strict : Prop} {H : Finset Nat}

@[simp] theorem obeys_freshArena (Q : Option Nat → Finset Nat → Prop) :
    Obeys Question.Fits strict freshArena H Q ↔
      Q none H ∧ ∀ av, av ≠ mainArena → av ∉ H → Q (some av) H := by
  constructor
  · intro h
    refine ⟨h none nofun, fun av hmain hav => h (some av) (fun a ha => ?_)⟩
    obtain rfl := Option.some.inj ha
    exact ⟨hmain, hav⟩
  · intro h r hr
    cases r with
    | none => exact h.1
    | some av => exact h.2 av (hr av rfl).1 (hr av rfl).2

end MyMalloc.Ptmalloc
