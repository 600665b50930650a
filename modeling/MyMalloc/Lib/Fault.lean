/- Computations on a state that may have no result.

   `Exec σ α` runs from a state to a value and a state, or faults: it reads
   memory that is not mapped, blocks on a mutex, or follows a list that does not
   end. `Returns x s Q` says that `x` does have a result from `s`, and that `Q`
   holds of it. -/
namespace MyMalloc

/-- A run from a state to a value and a state, or to no result. -/
def Exec (σ α : Type) : Type := σ → Option (α × σ)

namespace Exec
variable {σ α β : Type}

instance : Monad (Exec σ) where
  pure a := fun s => some (a, s)
  bind x f := fun s => match x s with
    | none => none
    | some (a, s') => f a s'

/-- No result. -/
def fault : Exec σ α := fun _ => none

/-- What is read off the state. -/
def gets (f : σ → α) : Exec σ α := fun s => some (f s, s)

def modify (f : σ → σ) : Exec σ Unit := fun s => some ((), f s)

/-- A program goes on from where its first step ends. -/
theorem bind_run {x : Exec σ α} {f : α → Exec σ β} {s s' : σ} {a : α} (hx : x s = some (a, s')) :
    (x >>= f) s = f a s' := by
  change (match x s with
    | none => none
    | some (a, s') => f a s') = f a s'
  rw [hx]

theorem gets_bind (f : σ → α) (g : α → Exec σ β) (s : σ) : (gets f >>= g) s = g (f s) s := rfl

/-- A program whose first step has no result has none. -/
theorem bind_none {x : Exec σ α} {f : α → Exec σ β} {s : σ} (hx : x s = none) :
    (x >>= f) s = none := by
  change (match x s with
    | none => none
    | some (a, s') => f a s') = none
  rw [hx]

/-- A program goes on from where a choice of its first step ends. -/
theorem branch_run {c : Prop} [Decidable c] {x y : Exec σ α} {f : α → Exec σ β} {s s' : σ} {a : α}
    (h : (if c then x else y) s = some (a, s')) : (if c then x >>= f else y >>= f) s = f a s' := by
  by_cases hc : c
  · rw [if_pos hc] at h ⊢
    exact bind_run h
  · rw [if_neg hc] at h ⊢
    exact bind_run h

theorem bind_assoc {γ : Type} (x : Exec σ α) (f : α → Exec σ β) (g : β → Exec σ γ) :
    (x >>= f) >>= g = x >>= fun a => f a >>= g := by
  funext s
  cases hx : x s with
  | none => rw [bind_none hx, bind_none (bind_none hx)]
  | some r =>
    rw [bind_run hx]
    cases hf : f r.1 r.2 with
    | none => rw [bind_none hf, bind_none ((bind_run hx).trans hf)]
    | some q => rw [bind_run hf, bind_run ((bind_run hx).trans hf)]

/-- `x` has a result from `s`, and it satisfies `Q`. -/
def Returns (x : Exec σ α) (s : σ) (Q : α → σ → Prop) : Prop :=
  ∃ a s', x s = some (a, s') ∧ Q a s'

end Exec

end MyMalloc
