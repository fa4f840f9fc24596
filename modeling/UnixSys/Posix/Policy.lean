import UnixSys.Posix.Sequential

/-!
# Policy — what a program may ask of the system

A policy says which calls a program may make, which argument lists it may
execute and whether it may run into undefined behaviour. `Prog.Obeys` is read
off the tree of the program: it holds on every path, whatever the forks return
and the calls answer, so in every run of every one of its processes.
-/

namespace UnixSys

variable {α β : Type}

structure Policy where
  mayCall : Call → Prop := fun _ => True
  mayExec : List Str → Prop := fun _ => True
  mayCrash : Prop := True

/-- The event is one that the policy allows. -/
def Event.Allowed (π : Policy) : Event → Prop
  | .call c _ => π.mayCall c
  | .launch l => π.mayExec l.argv

namespace Prog

/-- On every path the program keeps to the policy, and a result of the program
satisfies `Q`. -/
def Obeys (π : Policy) (Q : α → Prop) : Prog α → Prop
  | .ret a => Q a
  | .ub => π.mayCrash
  | .exit _ => True
  | .call c k => π.mayCall c ∧ ∀ r, c.Valid r → Obeys π Q (k r)
  | .fork k => ∀ r, Obeys π Q (k r)
  | .execvp argv k => π.mayExec argv ∧ Obeys π Q k
  | .waitpid _ k => Obeys π Q k
  | .waitFor _ k => Obeys π Q k

variable {π : Policy} {P : α → Prop} {Q : β → Prop}

/-- The two halves of a program, as in a weakest precondition. -/
theorem obeys_bind (p : Prog α) (f : α → Prog β) :
    (p >>= f).Obeys π Q ↔ p.Obeys π fun a => (f a).Obeys π Q := by
  induction p with
  | ret a => rfl
  | ub => rfl
  | exit n => rfl
  | call c k ih => exact and_congr_right fun _ => forall₂_congr fun r _ => ih r
  | fork k ih => exact forall_congr' ih
  | execvp argv k ih => exact and_congr_right fun _ => ih
  | waitpid pid k ih => exact ih
  | waitFor pid k ih => exact ih

theorem Obeys.mono {p : Prog α} {P' : α → Prop} (hp : p.Obeys π P) (h : ∀ a, P a → P' a) :
    p.Obeys π P' := by
  induction p with
  | ret a => exact h a hp
  | ub => exact hp
  | exit n => trivial
  | call c k ih => exact ⟨hp.1, fun r hr => ih r (hp.2 r hr)⟩
  | fork k ih => exact fun r => ih r (hp r)
  | execvp argv k ih => exact ⟨hp.1, ih hp.2⟩
  | waitpid pid k ih => exact ih hp
  | waitFor pid k ih => exact ih hp

theorem Obeys.bind {p : Prog α} {f : α → Prog β} (hp : p.Obeys π P)
    (hf : ∀ a, P a → (f a).Obeys π Q) : (p >>= f).Obeys π Q :=
  (obeys_bind p f).mpr (hp.mono hf)

/-- A step of C code that may be undefined behaviour. -/
theorem Obeys.lift {o : Option α} (hcrash : π.mayCrash) (h : ∀ a, o = some a → P a) :
    (Prog.lift o).Obeys π P := by
  cases o with
  | none => exact hcrash
  | some a => exact h a rfl

/-- Every program keeps to the policy that allows everything. -/
theorem obeys_trivial (p : Prog α) : p.Obeys {} fun _ => True := by
  induction p with
  | ret a => trivial
  | ub => trivial
  | exit n => trivial
  | call c k ih => exact ⟨trivial, fun r _ => ih r⟩
  | fork k ih => exact ih
  | execvp argv k ih => exact ⟨trivial, ih⟩
  | waitpid pid k ih => exact ih
  | waitFor pid k ih => exact ih

/-- What holds of every result holds of the result of a run. -/
theorem Obeys.of_ret {W : Type} {p : Prog α} (hp : p.Obeys {} P) {env : Env W} {x : Ctx W} {a : α}
    (h : (p.run env x).outcome = .ret a) : P a := by
  induction p generalizing x with
  | ret b =>
      cases h
      exact hp
  | ub => cases h
  | exit n => cases h
  | call c k ih =>
      simp only [Prog.run] at h
      cases happ : c.apply env x with
      | none =>
          rw [happ] at h
          cases h
      | some ry =>
          rw [happ] at h
          exact ih ry.1 (hp.2 _ (Call.valid_of_apply happ)) h
  | fork k ih => exact ih _ (hp _) h
  | execvp argv k ih =>
      simp only [Prog.run] at h
      cases hexec : env.exec x.world (x.fds.launch argv) with
      | none =>
          rw [hexec] at h
          exact ih hp.2 h
      | some iw =>
          rw [hexec] at h
          cases h
  | waitpid pid k ih => exact ih hp h
  | waitFor pid k ih => exact ih hp h

/-- The same calls, the same policy. -/
theorem Rel.obeys {R : α → β → Prop} {p : Prog α} {q : Prog β} (h : p.Rel R q)
    (hq : q.Obeys π Q) : p.Obeys π fun a => ∃ b, R a b ∧ Q b := by
  induction h with
  | ret hab => exact ⟨_, hab, hq⟩
  | ub => exact hq
  | exit n => trivial
  | call c _ ih => exact ⟨hq.1, fun r hr => ih r hr (hq.2 r hr)⟩
  | fork _ ih => exact fun r => ih r (hq r)
  | execvp argv _ ih => exact ⟨hq.1, ih hq.2⟩
  | waitpid pid _ ih => exact ih hq
  | waitFor pid _ ih => exact ih hq

end Prog

end UnixSys
