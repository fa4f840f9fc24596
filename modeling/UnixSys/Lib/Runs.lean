import Mathlib.Logic.Relation
import Mathlib.Order.WellFounded

/-!
# Runs — invariants and ranks of a transition relation

What holds at the start and is preserved by every step holds in every state
that can be reached. When every step lowers a well-founded rank, every run ends
in a state without successor.
-/

namespace UnixSys

variable {S : Type} (step : S → S → Prop)

/-- `s` can be reached from `s₀`, in any number of steps. -/
def Reachable (s₀ s : S) : Prop := Relation.ReflTransGen step s₀ s

/-- A state without successor. -/
def Stuck (s : S) : Prop := ∀ s', ¬ step s s'

variable {step}

theorem Reachable.refl (s : S) : Reachable step s s := Relation.ReflTransGen.refl

theorem Reachable.tail {s₀ s s' : S} (h : Reachable step s₀ s) (h' : step s s') :
    Reachable step s₀ s' :=
  Relation.ReflTransGen.tail h h'

theorem Reachable.head {s₀ s s' : S} (h : step s₀ s) (h' : Reachable step s s') :
    Reachable step s₀ s' :=
  Relation.ReflTransGen.head h h'

/-- An invariant of the steps holds in every reachable state. -/
theorem Reachable.invariant {I : S → Prop} {s₀ s : S} (h : Reachable step s₀ s)
    (hinit : I s₀) (hstep : ∀ s s', I s → step s s' → I s') : I s := by
  induction h with
  | refl => exact hinit
  | tail _ hs ih => exact hstep _ _ ih hs

/-- An invariant indexed by a well-founded rank that every step lowers: some run
ends in a stuck state. -/
theorem exists_stuck {ρ : Type} {lt : ρ → ρ → Prop} (hwf : WellFounded lt)
    {I : ρ → S → Prop}
    (hstep : ∀ n s s', I n s → step s s' → ∃ m, lt m n ∧ I m s') {n : ρ} {s : S}
    (h : I n s) : ∃ m s', Reachable step s s' ∧ I m s' ∧ Stuck step s' := by
  induction n using hwf.induction generalizing s with
  | _ n ih =>
      by_cases hs : Stuck step s
      · exact ⟨n, s, .refl s, h, hs⟩
      · simp only [Stuck, not_forall, not_not] at hs
        obtain ⟨s', hs'⟩ := hs
        obtain ⟨m, hm, hinv⟩ := hstep n s s' h hs'
        obtain ⟨m', s'', hreach, hinv', hstuck⟩ := ih m hm hinv
        exact ⟨m', s'', hreach.head hs', hinv', hstuck⟩

end UnixSys
