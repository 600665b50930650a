import MyMalloc.Lib.Program
import Mathlib.Data.Finset.Basic

/- Programs that take and release locks.

   The operations are those of one thread: locks are named by `ι`, and `ask`
   stands for everything else the thread learns on the way, with an answer of
   its own type. `Obeys` follows a program with the set of locks the thread
   holds, through every answer and every outcome of every `trylock`: a lock is
   never taken by the thread that holds it, and what a lock guards is touched
   with the lock held. A failed `trylock` is always possible, a successful one
   only if the thread does not hold the lock itself. -/
namespace MyMalloc

/-- What a thread does with locks `ι`, and the questions `κ` it asks. `build` fills in
    what a lock guards before any other thread can see it. -/
inductive LockOp (ι κ : Type) where
  | trylock (l : ι)
  | lock (l : ι)
  | unlock (l : ι)
  | access (l : ι)
  | build (l : ι)
  | ask (q : κ)

variable {ι κ : Type} {α β : Type} {Ans : κ → Type}

/-- The answers: whether a `trylock` succeeded, and what was asked for. -/
def LockOp.Answer (Ans : κ → Type) : LockOp ι κ → Type
  | .trylock _ => Bool
  | .ask q => Ans q
  | _ => Unit

/-- A program over lock operations. -/
abbrev LockProg (ι : Type) {κ : Type} (Ans : κ → Type) (α : Type) : Type :=
  Prog (LockOp ι κ) (LockOp.Answer Ans) α

namespace LockProg

def trylock (l : ι) : LockProg ι Ans Bool := .act (.trylock l) .done
def lock (l : ι) : LockProg ι Ans Unit := .act (.lock l) .done
def unlock (l : ι) : LockProg ι Ans Unit := .act (.unlock l) .done
def access (l : ι) : LockProg ι Ans Unit := .act (.access l) .done
def build (l : ι) : LockProg ι Ans Unit := .act (.build l) .done
def ask (q : κ) : LockProg ι Ans (Ans q) := .act (.ask q) .done

variable [DecidableEq ι]

/-- From the locks `H`, every run obeys the discipline and ends in `Q`. `fits` says which
    answers are possible; with `strict`, filling in is an access like any other. -/
def Obeys (fits : (q : κ) → Ans q → Finset ι → Prop) (strict : Prop) :
    LockProg ι Ans α → Finset ι → (α → Finset ι → Prop) → Prop
  | .done a, H, Q => Q a H
  | .act (.trylock l) k, H, Q =>
    (l ∉ H → Obeys fits strict (k true) (insert l H) Q) ∧ Obeys fits strict (k false) H Q
  | .act (.lock l) k, H, Q => l ∉ H ∧ Obeys fits strict (k ()) (insert l H) Q
  | .act (.unlock l) k, H, Q => Obeys fits strict (k ()) (H.erase l) Q
  | .act (.access l) k, H, Q => l ∈ H ∧ Obeys fits strict (k ()) H Q
  | .act (.build _) k, H, Q => ¬ strict ∧ Obeys fits strict (k ()) H Q
  | .act (.ask q) k, H, Q => ∀ r, fits q r H → Obeys fits strict (k r) H Q

variable {fits : (q : κ) → Ans q → Finset ι → Prop} {strict : Prop} {H : Finset ι}

variable {Q : α → Finset ι → Prop}

@[simp] theorem obeys_build (l : ι) (Q : Unit → Finset ι → Prop) :
    Obeys fits strict (build l : LockProg ι Ans Unit) H Q ↔ ¬ strict ∧ Q () H :=
  Iff.rfl

end LockProg

end MyMalloc
