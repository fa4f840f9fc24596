import UnixSys.Posix.Passes
import UnixSys.Posix.Children

/-!
# Worlds — policies along the file systems a program meets

What `glob` answers and whether a file can be opened depends on the file system,
and that changes while a program runs: by what it opens, and by the commands it
has executed. `Prog.Keeps` follows the file system along every path of the
program; a parent goes on in one that its child can leave. Whether `fork`, `pipe`
and `dup` succeed is left open.
-/

namespace UnixSys

variable {W α β : Type} {env : Env W}

/-! ## The file system after a call, a command, a process -/

/-- What the call can return in the file system `w`, and the file system after it. -/
def Call.Answers (env : Env W) (w : W) : (c : Call) → c.Res → W → Prop
  | .glob pat, r, w' => r = env.glob w pat ∧ w' = w
  | .openFile path how, fd, w' =>
      (env.openFile w path how = none ∧ fd = -1 ∧ w' = w) ∨
        (env.openFile w path how = some w' ∧ 0 ≤ fd)
  | .printf text, r, w' => (Call.printf text).Valid r ∧ w' = w
  | .perror text, r, w' => (Call.perror text).Valid r ∧ w' = w
  | .strcasecmp s t, r, w' => (Call.strcasecmp s t).Valid r ∧ w' = w
  | .dup fd, r, w' => (Call.dup fd).Valid r ∧ w' = w
  | .dup2 old new, r, w' => (Call.dup2 old new).Valid r ∧ w' = w
  | .close fd, r, w' => (Call.close fd).Valid r ∧ w' = w
  | .pipe, r, w' => Call.pipe.Valid r ∧ w' = w

theorem Call.Answers.valid {w w' : W} {c : Call} {r : c.Res} (h : c.Answers env w r w') :
    c.Valid r := by
  cases c with
  | glob pat =>
      obtain ⟨rfl, -⟩ := h
      exact fun ms hms => ⟨env.glob_ne_nil _ _ _ hms, env.glob_path _ _ _ hms,
        env.glob_plain _ _ _ hms⟩
  | openFile path how => trivial
  | _ => exact h.1

/-- A call in a run answers so. -/
theorem Call.answers_of_apply {c : Call} {x y : Ctx W} {r : c.Res}
    (h : c.apply env x = some (r, y)) : c.Answers env x.world r y.world := by
  have hvalid := Call.valid_of_apply h
  cases c with
  | glob pat =>
      cases h
      exact ⟨rfl, rfl⟩
  | openFile path how =>
      simp only [Call.apply] at h
      cases hopen : env.openFile x.world path how with
      | none =>
          rw [hopen] at h
          cases h
          exact .inl ⟨hopen, rfl, rfl⟩
      | some w =>
          rw [hopen] at h
          cases h
          exact .inr ⟨hopen, x.fds.lowest_nonneg⟩
  | strcasecmp s t =>
      cases s with
      | none => cases h
      | some s =>
          cases h
          exact ⟨hvalid, rfl⟩
  | dup fd =>
      simp only [Call.apply] at h
      split at h
      · cases h
        exact ⟨hvalid, rfl⟩
      · cases h
        exact ⟨hvalid, rfl⟩
  | _ =>
      cases h
      exact ⟨hvalid, rfl⟩

/-- A call that is undefined has no valid result. -/
theorem Call.not_valid_of_apply {c : Call} {x : Ctx W} (h : c.apply env x = none) (r : c.Res) :
    ¬ c.Valid r := by
  cases c with
  | strcasecmp s t =>
      cases s with
      | none => exact fun hr => by cases hr
      | some s => cases h
  | openFile path how =>
      simp only [Call.apply] at h
      split at h <;> cases h
  | dup fd =>
      simp only [Call.apply] at h
      split at h <;> cases h
  | _ => cases h

/-- The file systems that a command with these arguments can leave, whatever its
descriptors are. -/
def Ran (env : Env W) (w : W) (args : List Str) (w' : W) : Prop :=
  ∃ l : Launch, l.argv = args ∧ w' = (env.exec w l).elim w Prod.snd

theorem ran_world (x : Ctx W) (args : List Str) :
    Ran env x.world args (x.ran env args).world := ⟨x.fds.launch args, rfl, rfl⟩

/-- The file systems that a process can leave, at its `exit` or after the command
that it executes. -/
def Prog.Leaves (env : Env W) : Prog α → W → W → Prop
  | .ret _, w, w' | .ub, w, w' | .exit _, w, w' => w' = w
  | .call c k, w, w' => ((∀ r, ¬ c.Valid r) ∧ w' = w) ∨
      ∃ r w₁, c.Answers env w r w₁ ∧ (k r).Leaves env w₁ w'
  | .fork k, w, w' => (k .failed).Leaves env w w' ∨
      ∃ pid w₁, (k .child).Leaves env w w₁ ∧ (k (.parent pid)).Leaves env w₁ w'
  | .execvp argv k, w, w' => (∃ l i, l.argv = argv ∧ env.exec w l = some (i, w')) ∨
      (∃ l, l.argv = argv ∧ env.exec w l = none) ∧ k.Leaves env w w'
  | .waitpid _ k, w, w' | .waitFor _ k, w, w' => k.Leaves env w w'

/-- From the file system `w` the program can return this, in the file system `w'`. -/
def Prog.Gets (env : Env W) : Prog α → W → α → W → Prop
  | .ret a, w, a', w' => a' = a ∧ w' = w
  | .ub, _, _, _ | .exit _, _, _, _ => False
  | .call c k, w, a, w' => ∃ r w₁, c.Answers env w r w₁ ∧ (k r).Gets env w₁ a w'
  | .fork k, w, a, w' => (k .failed).Gets env w a w' ∨
      ∃ pid w₁, (k .child).Leaves env w w₁ ∧ (k (.parent pid)).Gets env w₁ a w'
  | .execvp argv k, w, a, w' =>
      (∃ l : Launch, l.argv = argv ∧ env.exec w l = none) ∧ k.Gets env w a w'
  | .waitpid _ k, w, a, w' | .waitFor _ k, w, a, w' => k.Gets env w a w'

/-- In the file system `w` the program keeps to the policy, on every path. -/
def Prog.Keeps (env : Env W) (π : Policy) : Prog α → W → Prop
  | .ret _, _ | .exit _, _ => True
  | .ub, _ => π.mayCrash
  | .call c k, w => π.mayCall c ∧ ∀ r w', c.Answers env w r w' → (k r).Keeps env π w'
  | .fork k, w => (k .failed).Keeps env π w ∧ (k .child).Keeps env π w ∧
      ∀ pid w', (k .child).Leaves env w w' → (k (.parent pid)).Keeps env π w'
  | .execvp argv k, w => π.mayExec argv ∧
      ((∃ l : Launch, l.argv = argv ∧ env.exec w l = none) → k.Keeps env π w)
  | .waitpid _ k, w | .waitFor _ k, w => k.Keeps env π w

namespace Prog

variable {π : Policy} {w : W}

/-! ## Rules -/

/-- A call with one answer. -/
theorem keeps_call {c : Call} {k : c.Res → Prog α} {r : c.Res} {w₁ : W} (hcall : π.mayCall c)
    (h : ∀ r' w', c.Answers env w r' w' ↔ r' = r ∧ w' = w₁) :
    (Prog.call c k).Keeps env π w ↔ (k r).Keeps env π w₁ := by
  constructor
  · intro hkeeps
    exact hkeeps.2 r w₁ ((h r w₁).mpr ⟨rfl, rfl⟩)
  · intro hkeeps
    refine ⟨hcall, fun r' w' hr => ?_⟩
    obtain ⟨rfl, rfl⟩ := (h r' w').mp hr
    exact hkeeps

theorem leaves_call {c : Call} {k : c.Res → Prog α} {r : c.Res} {w₁ w₂ : W}
    (h : ∀ r' w', c.Answers env w r' w' ↔ r' = r ∧ w' = w₁) :
    (Prog.call c k).Leaves env w w₂ ↔ (k r).Leaves env w₁ w₂ := by
  have hr := (h r w₁).mpr ⟨rfl, rfl⟩
  constructor
  · rintro (⟨hnone, -⟩ | ⟨r', w', hr', hleaves⟩)
    · exact absurd hr.valid (hnone r)
    · obtain ⟨rfl, rfl⟩ := (h r' w').mp hr'
      exact hleaves
  · intro hleaves
    exact .inr ⟨r, w₁, hr, hleaves⟩

/-- The program hands on in the same file system, whatever comes next. -/
structure Still (env : Env W) (π : Policy) (p : Prog Unit) : Prop where
  keeps {β : Type} (f : Unit → Prog β) (w : W) :
    (p >>= f).Keeps env π w ↔ (f ()).Keeps env π w
  leaves {β : Type} (f : Unit → Prog β) (w w' : W) :
    (p >>= f).Leaves env w w' ↔ (f ()).Leaves env w w'

theorem Still.ret : (Prog.ret ()).Still env π := ⟨fun _ _ => Iff.rfl, fun _ _ _ => Iff.rfl⟩

theorem Still.bind {p q : Prog Unit} (hp : p.Still env π) (hq : q.Still env π) :
    (do p; q).Still env π where
  keeps f w := by rw [bind_bind, hp.keeps, hq.keeps]
  leaves f w w' := by rw [bind_bind, hp.leaves, hq.leaves]

/-- A call with one result, which has nothing to do with the file system. -/
theorem Still.call {c : Call} (hcall : π.mayCall c) (r : c.Res) (hr : ∀ r', r' = r ∧ c.Valid r')
    (h : ∀ w r' w', c.Answers env w r' w' ↔ c.Valid r' ∧ w' = w) :
    (Prog.call c fun _ => .ret ()).Still env π := by
  have hone : ∀ w r' w', c.Answers env w r' w' ↔ r' = r ∧ w' = w := by
    intro w r' w'
    rw [h]
    exact and_congr_left fun _ => iff_of_true (hr r').2 (hr r').1
  exact ⟨fun _ w => keeps_call hcall (hone w), fun _ w _ => leaves_call (hone w)⟩

/-- What a process that executes `args`, and ends if it cannot, leaves. -/
theorem leaves_execvp {args : List Str} {k : Prog α} {w' : W}
    (hk : k.Leaves env w w' ↔ w' = w) :
    (Prog.execvp args k).Leaves env w w' ↔ Ran env w args w' := by
  constructor
  · rintro (⟨l, i, rfl, hexec⟩ | ⟨⟨l, rfl, hexec⟩, hleaves⟩)
    · exact ⟨l, rfl, by rw [hexec]; rfl⟩
    · exact ⟨l, rfl, by rw [hexec]; exact hk.mp hleaves⟩
  · rintro ⟨l, rfl, hw'⟩
    cases hexec : env.exec w l with
    | none =>
        rw [hexec] at hw'
        exact .inr ⟨⟨l, rfl, hexec⟩, hk.mpr hw'⟩
    | some iw =>
        rw [hexec] at hw'
        exact .inl ⟨l, iw.1, rfl, hw' ▸ hexec⟩

/-- The same calls leave the same file systems. -/
theorem Rel.leaves_iff {R : α → β → Prop} {p : Prog α} {q : Prog β} (h : p.Rel R q)
    (env : Env W) (w w' : W) : p.Leaves env w w' ↔ q.Leaves env w w' := by
  induction h generalizing w w' with
  | ret _ => rfl
  | ub => rfl
  | exit n => rfl
  | call c _ ih =>
      refine or_congr_right (exists_congr fun r => exists_congr fun w₁ => ?_)
      exact and_congr_right fun hr => ih r hr.valid w₁ w'
  | fork _ ih =>
      refine or_congr (ih _ w w') (exists_congr fun pid => exists_congr fun w₁ => ?_)
      exact and_congr (ih _ w w₁) (ih _ w₁ w')
  | execvp argv _ ih => exact or_congr_right (and_congr_right fun _ => ih w w')
  | waitpid pid _ ih => exact ih w w'
  | waitFor pid _ ih => exact ih w w'

/-- The same calls, the same policy. -/
theorem Rel.keeps_iff {R : α → β → Prop} {p : Prog α} {q : Prog β} (h : p.Rel R q)
    (env : Env W) (π : Policy) (w : W) : p.Keeps env π w ↔ q.Keeps env π w := by
  induction h generalizing w with
  | ret _ => rfl
  | ub => rfl
  | exit n => rfl
  | call c _ ih =>
      refine and_congr_right fun _ => forall_congr' fun r => forall₂_congr fun w₁ hr => ?_
      exact ih r hr.valid w₁
  | fork hk ih =>
      refine and_congr (ih _ w) (and_congr (ih _ w) (forall₂_congr fun pid w' => ?_))
      rw [(hk .child).leaves_iff env w w', ih _ w']
  | execvp argv _ ih => exact and_congr_right fun _ => imp_congr_right fun _ => ih w
  | waitpid pid _ ih => exact ih w
  | waitFor pid _ ih => exact ih w

/-- A program that does not crash keeps to a policy if it does so wherever it does not
crash. -/
theorem Obeys.keeps {p : Prog α} {Q : α → Prop} (hp : p.Obeys { π with mayCrash := True } Q)
    (hdefined : p.Keeps env { mayCrash := False } w) :
    p.Keeps env π w := by
  induction p generalizing w with
  | ret a => trivial
  | ub => exact hdefined.elim
  | exit n => trivial
  | call c k ih => exact ⟨hp.1, fun r w' hr => ih r (hp.2 r hr.valid) (hdefined.2 r w' hr)⟩
  | fork k ih =>
      exact ⟨ih _ (hp _) hdefined.1, ih _ (hp _) hdefined.2.1,
        fun pid w' hw' => ih _ (hp _) (hdefined.2.2 pid w' hw')⟩
  | execvp argv k ih => exact ⟨hp.1, fun hexec => ih hp.2 (hdefined.2 hexec)⟩
  | waitpid pid k ih => exact ih hp hdefined
  | waitFor pid k ih => exact ih hp hdefined

/-- Whatever the calls return is whatever they return in some file system. -/
theorem Obeys.keeps_all {p : Prog α} {Q : α → Prop} (hp : p.Obeys π Q) (w : W) :
    p.Keeps env π w := by
  induction p generalizing w with
  | ret a => trivial
  | ub => exact hp
  | exit n => trivial
  | call c k ih => exact ⟨hp.1, fun r w' hr => ih r (hp.2 r hr.valid) w'⟩
  | fork k ih => exact ⟨ih _ (hp _) w, ih _ (hp _) w, fun pid w' _ => ih _ (hp _) w'⟩
  | execvp argv k ih => exact ⟨hp.1, fun _ => ih hp.2 w⟩
  | waitpid pid k ih => exact ih hp w
  | waitFor pid k ih => exact ih hp w

/-- What holds of every result. -/
theorem Obeys.of_gets {p : Prog α} {Q : α → Prop} (hp : p.Obeys π Q) {a : α} {w' : W}
    (h : p.Gets env w a w') : Q a := by
  induction p generalizing w with
  | ret b =>
      obtain ⟨rfl, -⟩ := h
      exact hp
  | ub => exact h.elim
  | exit n => exact h.elim
  | call c k ih =>
      obtain ⟨r, w₁, hr, h⟩ := h
      exact ih r (hp.2 r hr.valid) h
  | fork k ih =>
      rcases h with h | ⟨pid, w₁, -, h⟩
      · exact ih _ (hp _) h
      · exact ih _ (hp _) h
  | execvp argv k ih => exact ih hp.2 h.2
  | waitpid pid k ih => exact ih hp h
  | waitFor pid k ih => exact ih hp h

/-! ### Composition -/

/-- What does not return leaves the same whatever were to come next. -/
theorem NeverReturns.leaves_of_bind {p : Prog α} (hp : p.NeverReturns) (f : α → Prog β) {w' : W}
    (h : (p >>= f).Leaves env w w') : p.Leaves env w w' := by
  induction p generalizing w w' with
  | ret a => exact hp.elim
  | ub => exact h
  | exit n => exact h
  | call c k ih =>
      refine h.imp_right ?_
      rintro ⟨r, w₁, hr, h⟩
      exact ⟨r, w₁, hr, ih r (hp.2 r hr.valid) h⟩
  | fork k ih =>
      refine h.imp (ih _ (hp _)) ?_
      rintro ⟨pid, w₁, hchild, h⟩
      exact ⟨pid, w₁, ih _ (hp _) hchild, ih _ (hp _) h⟩
  | execvp argv k ih => exact h.imp_right fun h => ⟨h.1, ih hp.2 h.2⟩
  | waitpid pid k ih => exact ih hp h
  | waitFor pid k ih => exact ih hp h

theorem NeverReturns.keeps_bind {p : Prog α} (hp : p.NeverReturns) (f : α → Prog β)
    (h : p.Keeps env π w) : (p >>= f).Keeps env π w := by
  induction p generalizing w with
  | ret a => exact hp.elim
  | ub => exact h
  | exit n => trivial
  | call c k ih => exact ⟨h.1, fun r w' hr => ih r (hp.2 r hr.valid) (h.2 r w' hr)⟩
  | fork k ih =>
      refine ⟨ih _ (hp _) h.1, ih _ (hp _) h.2.1, fun pid w' hw' => ih _ (hp _) (h.2.2 pid w' ?_)⟩
      exact NeverReturns.leaves_of_bind (hp .child) f hw'
  | execvp argv k ih => exact ⟨h.1, fun hexec => ih hp.2 (h.2 hexec)⟩
  | waitpid pid k ih => exact ih hp h
  | waitFor pid k ih => exact ih hp h

/-- A program keeps to the policy when its first half does, and its second half
does on every result of the first. -/
theorem ChildrenEnd.keeps_bind {p : Prog α} (hp : p.ChildrenEnd) {f : α → Prog β}
    (h : p.Keeps env π w) (hf : ∀ a w', p.Gets env w a w' → (f a).Keeps env π w') :
    (p >>= f).Keeps env π w := by
  induction p generalizing w with
  | ret a => exact hf a w ⟨rfl, rfl⟩
  | ub => exact h
  | exit n => trivial
  | call c k ih =>
      refine ⟨h.1, fun r w₁ hr => ih r (hp r) (h.2 r w₁ hr) fun a w' ha => ?_⟩
      exact hf a w' ⟨r, w₁, hr, ha⟩
  | fork k ih =>
      -- the child never comes to `f`, so it leaves what it would leave without it
      refine ⟨ih _ hp.2.1 h.1 fun a w' ha => hf a w' (.inl ha), hp.1.keeps_bind f h.2.1, ?_⟩
      intro pid w₁ hw₁
      have hleaves := hp.1.leaves_of_bind f hw₁
      exact ih _ (hp.2.2 pid) (h.2.2 pid w₁ hleaves) fun a w' ha =>
        hf a w' (.inr ⟨pid, w₁, hleaves, ha⟩)
  | execvp argv k ih =>
      exact ⟨h.1, fun hexec => ih hp (h.2 hexec) fun a w' ha => hf a w' ⟨hexec, ha⟩⟩
  | waitpid pid k ih => exact ih hp h hf
  | waitFor pid k ih => exact ih hp h hf

/-! ## The sequential run -/

theorem run_leaves (p : Prog α) (x : Ctx W) :
    p.Leaves env x.world (p.run env x).ctx.world := by
  induction p generalizing x with
  | ret a => rfl
  | ub => rfl
  | exit n => rfl
  | call c k ih =>
      simp only [Prog.run]
      cases happ : c.apply env x with
      | none => exact .inl ⟨Call.not_valid_of_apply happ, rfl⟩
      | some ry => exact .inr ⟨ry.1, ry.2.world, Call.answers_of_apply happ, ih _ _⟩
  | fork k ih =>
      -- the sequential run is the one in which `fork` succeeds
      refine .inr ⟨x.procs, _, ih .child { x with procs := x.procs + 1 }, ?_⟩
      exact ih (.parent x.procs) (x.after _)
  | execvp argv k ih =>
      simp only [Prog.run]
      cases hexec : env.exec x.world (x.fds.launch argv) with
      | none => exact .inr ⟨⟨x.fds.launch argv, rfl, hexec⟩, ih x⟩
      | some iw => exact .inl ⟨x.fds.launch argv, iw.1, rfl, hexec⟩
  | waitpid pid k ih => exact ih x
  | waitFor pid k ih => exact ih x

/-- What a run returns can be returned. -/
theorem gets_of_run {p : Prog α} {x : Ctx W} {a : α} (h : (p.run env x).outcome = .ret a) :
    p.Gets env x.world a (p.run env x).ctx.world := by
  induction p generalizing x with
  | ret b =>
      cases h
      exact ⟨rfl, rfl⟩
  | ub => cases h
  | exit n => cases h
  | call c k ih =>
      simp only [Prog.run] at h ⊢
      cases happ : c.apply env x with
      | none =>
          rw [happ] at h
          cases h
      | some ry =>
          rw [happ] at h
          exact ⟨ry.1, ry.2.world, Call.answers_of_apply happ, ih ry.1 h⟩
  | fork k ih =>
      exact .inr ⟨x.procs, _, run_leaves (k .child) { x with procs := x.procs + 1 }, ih _ h⟩
  | execvp argv k ih =>
      simp only [Prog.run] at h ⊢
      cases hexec : env.exec x.world (x.fds.launch argv) with
      | none =>
          rw [hexec] at h
          exact ⟨⟨x.fds.launch argv, rfl, hexec⟩, ih h⟩
      | some iw =>
          rw [hexec] at h
          cases h
  | waitpid pid k ih => exact ih h
  | waitFor pid k ih => exact ih h

/-- The events of a run are those that the policy allows. -/
theorem Keeps.run {p : Prog α} {x : Ctx W} (h : p.Keeps env π x.world) :
    ∀ e ∈ (p.run env x).log, e.Allowed π := by
  induction p generalizing x with
  | ret a => exact fun e he => by cases he
  | ub => exact fun e he => by cases he
  | exit n => exact fun e he => by cases he
  | call c k ih =>
      intro e he
      simp only [Prog.run] at he
      cases happ : c.apply env x with
      | none =>
          rw [happ, List.mem_singleton] at he
          rw [he]
          exact h.1
      | some ry =>
          rw [happ, Run.log_prepend, List.singleton_append, List.mem_cons] at he
          rcases he with rfl | he
          · exact h.1
          · exact ih _ (h.2 _ _ (Call.answers_of_apply happ)) e he
  | fork k ih =>
      intro e he
      simp only [Prog.run, Run.log_prepend, List.mem_append] at he
      rcases he with he | he
      · exact ih .child (x := { x with procs := x.procs + 1 }) h.2.1 e he
      · refine ih _ (x := x.after _) (h.2.2 x.procs _ ?_) e he
        exact run_leaves (k .child) { x with procs := x.procs + 1 }
  | execvp argv k ih =>
      intro e he
      simp only [Prog.run] at he
      cases hexec : env.exec x.world (x.fds.launch argv) with
      | none =>
          rw [hexec, Run.log_prepend, List.singleton_append, List.mem_cons] at he
          rcases he with rfl | he
          · exact h.1
          · exact ih (h.2 ⟨_, rfl, hexec⟩) e he
      | some iw =>
          rw [hexec, List.mem_singleton] at he
          rw [he]
          exact h.1
  | waitpid pid k ih => exact ih h
  | waitFor pid k ih => exact ih h

end Prog

end UnixSys
