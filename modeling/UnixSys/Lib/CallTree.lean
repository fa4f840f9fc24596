import Mathlib.Data.Nat.Notation
import Mathlib.Tactic.TypeStar

/-!
# CallTree — programs as trees of calls, and what holds after a run

A program over calls `C` is the tree of the calls it makes: each node is one call, with one
subtree for each result. It may also stop in some way `S`, go on for ever, or be undefined.
`run` is its run on a machine that answers the calls, and `wp` the weakest precondition for
a result, or a stop, as asked for. The rules of `wp` follow the constructors and `bind`.
-/

namespace UnixSys

inductive CallTree {C : Type} (Res : C → Type) (S α : Type) : Type where
  | ret (a : α)
  | stop (s : S)
  | ub
  | spin
  | call (c : C) (k : Res c → CallTree Res S α)

/-- How a run ends. -/
inductive CallTree.Outcome (S α : Type) where
  | ok (a : α)
  | stop (s : S)
  | ub
  | spin

namespace CallTree

variable {C S α β γ : Type} {Res : C → Type}

def bind : CallTree Res S α → (α → CallTree Res S β) → CallTree Res S β
  | .ret a, f => f a
  | .stop s, _ => .stop s
  | .ub, _ => .ub
  | .spin, _ => .spin
  | .call c k, f => .call c fun r => (k r).bind f

instance : Monad (CallTree Res S) where
  pure := .ret
  bind := .bind

@[simp] theorem pure_eq (a : α) : (pure a : CallTree Res S α) = .ret a := rfl

@[simp] theorem ret_bind (a : α) (f : α → CallTree Res S β) :
    ((.ret a : CallTree Res S α) >>= f) = f a := rfl

@[simp] theorem stop_bind (s : S) (f : α → CallTree Res S β) :
    ((.stop s : CallTree Res S α) >>= f) = .stop s := rfl

@[simp] theorem call_bind (c : C) (k : Res c → CallTree Res S α)
    (f : α → CallTree Res S β) :
    (CallTree.call c k >>= f) = .call c fun r => k r >>= f := rfl

theorem bind_assoc (p : CallTree Res S α) (f : α → CallTree Res S β)
    (g : β → CallTree Res S γ) : (p >>= f >>= g) = (p >>= fun a => f a >>= g) := by
  induction p with
  | ret a => rfl
  | stop s => rfl
  | ub => rfl
  | spin => rfl
  | call c k ih => exact congrArg (CallTree.call c) (funext ih)

/-! ## The run on a machine -/

variable {σ : Type} (apply : (c : C) → σ → Res c × σ)

/-- The run of a program from a state, and the state that it leaves. -/
def run : CallTree Res S α → σ → Outcome S α × σ
  | .ret a, w => (.ok a, w)
  | .stop s, w => (.stop s, w)
  | .ub, w => (.ub, w)
  | .spin, w => (.spin, w)
  | .call c k, w => (k (apply c w).1).run (apply c w).2

/-- The run from `w` ends with a result and a state in `Q`, or stops as `E` allows. -/
def wp (E : S → σ → Prop) : CallTree Res S α → (α → σ → Prop) → σ → Prop
  | .ret a, Q, w => Q a w
  | .stop s, _, w => E s w
  | .ub, _, _ => False
  | .spin, _, _ => False
  | .call c k, Q, w => (k (apply c w).1).wp E Q (apply c w).2

variable {apply} {E E' : S → σ → Prop} {p : CallTree Res S α} {Q Q' : α → σ → Prop} {w : σ}

/-- A call whose answer is known. -/
theorem wp_call {c : C} {k : Res c → CallTree Res S α} {r : Res c} {w' : σ}
    (h : apply c w = (r, w')) :
    (CallTree.call c k).wp apply E Q w ↔ (k r).wp apply E Q w' := by
  rw [wp, h]

theorem wp_bind {f : α → CallTree Res S β} {Q : β → σ → Prop} :
    (p >>= f).wp apply E Q w ↔ p.wp apply E (fun a => (f a).wp apply E Q) w := by
  induction p generalizing w with
  | ret a => exact Iff.rfl
  | stop s => exact Iff.rfl
  | ub => exact Iff.rfl
  | spin => exact Iff.rfl
  | call c k ih => exact ih _

theorem wp.mono (h : p.wp apply E Q w) (hE : ∀ s w, E s w → E' s w)
    (hQ : ∀ a w, Q a w → Q' a w) : p.wp apply E' Q' w := by
  induction p generalizing w with
  | ret a => exact hQ _ _ h
  | stop s => exact hE _ _ h
  | ub => exact h
  | spin => exact h
  | call c k ih => exact ih _ h

/-- A program and what follows it, by what is known between them. -/
theorem wp.bind {f : α → CallTree Res S β} {R : β → σ → Prop} (h : p.wp apply E Q w)
    (hf : ∀ a w, Q a w → (f a).wp apply E R w) : (p >>= f).wp apply E R w :=
  wp_bind.mpr (h.mono (fun _ _ h => h) hf)

/-- What the weakest precondition says of the run. -/
theorem wp_iff_run : p.wp apply E Q w ↔
    (∃ a w', p.run apply w = (.ok a, w') ∧ Q a w') ∨
      ∃ s w', p.run apply w = (.stop s, w') ∧ E s w' := by
  induction p generalizing w with
  | ret a =>
      constructor
      · exact fun h => .inl ⟨a, w, rfl, h⟩
      · rintro (⟨b, w', heq, h⟩ | ⟨s, w', heq, -⟩)
        · cases heq
          exact h
        · cases heq
  | stop s =>
      constructor
      · exact fun h => .inr ⟨s, w, rfl, h⟩
      · rintro (⟨b, w', heq, -⟩ | ⟨s, w', heq, h⟩)
        · cases heq
        · cases heq
          exact h
  | ub =>
      refine iff_of_false id ?_
      rintro (⟨_, _, heq, -⟩ | ⟨_, _, heq, -⟩) <;> cases heq
  | spin =>
      refine iff_of_false id ?_
      rintro (⟨_, _, heq, -⟩ | ⟨_, _, heq, -⟩) <;> cases heq
  | call c k ih => exact ih _

/-- A run that returns. -/
theorem wp.ok {a : α} {w' : σ} (h : p.wp apply E Q w) (hrun : p.run apply w = (.ok a, w')) :
    Q a w' := by
  rcases wp_iff_run.mp h with ⟨b, w'', heq, hQ⟩ | ⟨s, w'', heq, -⟩
  · cases hrun.symm.trans heq
    exact hQ
  · cases hrun.symm.trans heq

/-! ## Whatever the calls answer -/

section
variable {γ : Type} (ok : C → γ → Prop) (next : (c : C) → Res c → γ → γ)

/-- Whatever the calls answer, each of them is as `ok` asks, and so is a result. `next` keeps
account of the calls made so far. -/
def always : CallTree Res S α → (α → γ → Prop) → γ → Prop
  | .ret a, Q, g => Q a g
  | .stop _, _, _ => True
  | .ub, _, _ => True
  | .spin, _, _ => True
  | .call c k, Q, g => ok c g ∧ ∀ r, (k r).always Q (next c r g)

variable {ok next} {g : γ}

theorem always_bind {p : CallTree Res S α} {f : α → CallTree Res S β} {Q : β → γ → Prop} :
    (p >>= f).always ok next Q g ↔
      p.always ok next (fun a g' => (f a).always ok next Q g') g := by
  induction p generalizing g with
  | ret a => exact Iff.rfl
  | stop s => exact Iff.rfl
  | ub => exact Iff.rfl
  | spin => exact Iff.rfl
  | call c k ih => exact and_congr_right fun _ => forall_congr' fun r => ih r

end

end CallTree

end UnixSys
