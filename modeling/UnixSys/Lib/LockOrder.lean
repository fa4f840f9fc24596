import Mathlib.Data.Set.Finite.Lemmas

/-!
# LockOrder — processes that take locks in order do not block each other for ever

Each lock has a low and a high rank. A process that waits for a lock has only locks whose high
rank is below the low rank of it, and a lock that is in its way has a high rank that is not.
Along the processes that wait for one another the ranks grow, so that one of them does not
wait.
-/

namespace UnixSys

/-- Of finitely many processes that run, one does not wait for another. -/
theorem exists_unblocked {ι κ : Type} [Finite ι] {alive : ι → Prop} {held : ι → List κ}
    {want : ι → Option κ} {conflict : κ → κ → Prop} {low high : κ → Nat}
    (hdead : ∀ i, ¬ alive i → held i = [])
    (horder : ∀ i l h, want i = some l → h ∈ held i → high h < low l)
    (hconflict : ∀ i j l h, want i = some l → h ∈ held j → conflict l h → low l ≤ high h)
    (hsome : ∃ i, alive i) :
    ∃ i, alive i ∧ ∀ l, want i = some l → ∀ j ≠ i, ∀ h ∈ held j, ¬ conflict l h := by
  by_cases hfree : ∃ i, alive i ∧ want i = none
  · obtain ⟨i, hi, hnone⟩ := hfree
    exact ⟨i, hi, fun l hl => by cases hnone.symm.trans hl⟩
  · -- all of them wait: one waits for a lock of the highest rank
    have hwants : ∀ i, alive i → ∃ l, want i = some l := by
      intro i hi
      cases hw : want i with
      | none => exact absurd ⟨i, hi, hw⟩ hfree
      | some l => exact ⟨l, rfl⟩
    obtain ⟨i, hi, hmax⟩ := Set.exists_max_image {i | alive i}
      (fun i => (want i).elim 0 low) (Set.toFinite _) hsome
    refine ⟨i, hi, fun l hl j _ h hh hc => ?_⟩
    have hj : alive j := by
      by_contra hnot
      rw [hdead j hnot] at hh
      exact List.not_mem_nil hh
    obtain ⟨l', hl'⟩ := hwants j hj
    have hle := hmax j hj
    have hlow := hconflict i j l h hl hh hc
    have hhigh := horder j l' h hl' hh
    simp only [hl, hl', Option.elim_some] at hle
    omega

end UnixSys
