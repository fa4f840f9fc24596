import UnixSys.Posix.Kernel
import UnixSys.Posix.Sequential

/-!
# Solo — a shell with one child at a time

`Prog.Solo` describes a program that never has two children: between a `fork`
and the wait for that child it makes calls only, and the child goes on to an
`execvp` or to `exit`. It speaks of one process at a time, and
`Prog.Solo.reachable` shows that it is enough to know every state that any
interleaving can reach.
-/

namespace UnixSys

variable {W α β : Type}

/-! ## The shape of the process table -/

/-- The processes are a shell, the children it has waited for, and at most one
more child. -/
structure Shape (s : Sys W α) (sh : Proc α) (done : List (Proc α)) (kid : Option (Proc α)) :
    Prop where
  procs : s.procs = sh :: (done ++ kid.toList)
  shell : sh.parent = none
  done : ∀ p ∈ done, p.parent = some 0 ∧ ∃ e, p.code = .reaped e
  kid : ∀ p ∈ kid, p.parent = some 0

namespace Shape

variable {M : Machine W α} {s s' : Sys W α} {sh p : Proc α} {done : List (Proc α)}
  {kid : Option (Proc α)}

theorem getElem?_kid (h : Shape s sh done (some p)) : s.procs[done.length + 1]? = some p := by
  rw [h.procs]
  simp

/-- A process of the table: the shell, one that has ended, or the child. -/
theorem getElem?_cases (h : Shape s sh done kid) {pid : Nat} {q : Proc α}
    (hq : s.procs[pid]? = some q) :
    (pid = 0 ∧ q = sh) ∨ q ∈ done ∨ (pid = done.length + 1 ∧ kid = some q) := by
  rw [h.procs] at hq
  cases pid with
  | zero => exact .inl ⟨rfl, by simpa using hq.symm⟩
  | succ pid =>
      rw [List.getElem?_cons_succ, List.getElem?_append] at hq
      split at hq
      · exact .inr (.inl (List.mem_of_getElem? hq))
      · rename_i hlt
        cases kid with
        | none => simp at hq
        | some k =>
            rw [Option.toList_some, List.getElem?_singleton] at hq
            split at hq
            · exact .inr (.inr ⟨by omega, by simpa using hq⟩)
            · cases hq

/-- Only the shell and its child can move. -/
theorem step_cases (h : Shape s sh done kid) (hs : Step M s s') :
    ProcStep M s 0 sh s' ∨ ∃ p, kid = some p ∧ ProcStep M s (done.length + 1) p s' := by
  obtain ⟨pid, q, hq, hstep⟩ := hs
  rcases h.getElem?_cases hq with ⟨rfl, rfl⟩ | hmem | ⟨rfl, rfl⟩
  · exact .inl hstep
  · obtain ⟨e, he⟩ := (h.done q hmem).2
    simp [ProcStep, he] at hstep
  · exact .inr ⟨q, rfl, hstep⟩

theorem step_shell (h : Shape s sh done kid) (hs : ProcStep M s 0 sh s') : Step M s s' :=
  ⟨0, sh, by rw [h.procs]; rfl, hs⟩

theorem step_kid (h : Shape s sh done (some p)) (hs : ProcStep M s (done.length + 1) p s') :
    Step M s s' :=
  ⟨done.length + 1, p, h.getElem?_kid, hs⟩

/-- The shell changes. -/
theorem setShell (h : Shape s sh done kid) {sh' : Proc α}
    (hp : s'.procs = s.procs.set 0 sh') (hsh : sh'.parent = none) : Shape s' sh' done kid :=
  ⟨by rw [hp, h.procs, List.set_cons_zero], hsh, h.done, h.kid⟩

/-- The child changes. -/
theorem setKid (h : Shape s sh done (some p)) {p' : Proc α}
    (hp : s'.procs = s.procs.set (done.length + 1) p') (hp' : p'.parent = some 0) :
    Shape s' sh done (some p') := by
  refine ⟨?_, h.shell, h.done, by simpa using hp'⟩
  rw [hp, h.procs, List.set_cons_succ, List.set_append_right _ _ (Nat.le_refl _)]
  simp

theorem spawn (h : Shape s sh done none) {sh' c : Proc α} (hsh : sh'.parent = none)
    (hc : c.parent = some 0) : Shape (s.spawn 0 sh' c) sh' done (some c) := by
  refine ⟨?_, hsh, h.done, by simpa using hc⟩
  simp [Sys.spawn, h.procs]

/-- The child, once it has been waited for, is one of those that have ended. -/
theorem settle (h : Shape s sh done (some p)) {e : Ending} (he : p.code = .reaped e) :
    Shape s sh (done ++ [p]) none := by
  refine ⟨by rw [h.procs]; simp, h.shell, ?_, by simp⟩
  intro q hq
  rcases List.mem_append.mp hq with hq | hq
  · exact h.done q hq
  · rw [List.mem_singleton.mp hq]
    exact ⟨h.kid p rfl, e, he⟩

theorem length_procs (h : Shape s sh done kid) :
    s.procs.length = done.length + 1 + kid.toList.length := by
  rw [h.procs]
  simp
  omega

end Shape

/-! ## Programs that wait for each child -/

/-- What a program knows of itself: the child it has not waited for, how many
processes and pipes have been made so far, and its descriptor table. -/
structure View where
  child : Option Nat
  procs : Nat
  pipes : Nat
  fds : FdTable

section
variable (env : Env W) (U : Prop)

/-- A child that goes on to `execvp` or `exit`, by calls that make no pipe. `R`
holds of every argument list and descriptor table it calls `execvp` with, `U`
when it runs into undefined behaviour. -/
def Prog.Child (R : List Str → FdTable → Prop) : Prog α → FdTable → Prop
  | .ret _, _ => False
  | .ub, _ => U
  | .exit _, _ => True
  | .call c k, T => ∀ x : Ctx W, x.fds = T →
      match c.apply env x with
      | none => U
      | some (r, y) => y.pipes = x.pipes ∧ (k r).Child R y.fds
  | .fork _, _ => False
  | .execvp argv k, T => R argv T ∧ k.Child R T
  | .waitpid _ _, _ => False
  | .waitFor _ _, _ => False

/-- A program that has at most one child at a time. `R pid` holds of every
`execvp` of the child `pid`, `Q` of every result, `U` of undefined behaviour. -/
def Prog.Solo (R : Nat → List Str → FdTable → Prop) (Q : α → View → Prop) :
    Prog α → View → Prop
  | .ret a, v => Q a v
  | .ub, _ => U
  | .exit _, _ => True
  | .call c k, v => ∀ x : Ctx W, x.fds = v.fds → x.pipes = v.pipes →
      match c.apply env x with
      | none => U
      | some (r, y) => (k r).Solo R Q { v with pipes := y.pipes, fds := y.fds }
  | .fork k, v =>
      v.child = none ∧ (k .child).Child env U (R v.procs) v.fds ∧
        (k (.parent v.procs)).Solo R Q { v with child := some v.procs, procs := v.procs + 1 }
  | .execvp _ _, _ => False
  | .waitpid pid k, v => v.child = some pid ∧ k.Solo R Q { v with child := none }
  | .waitFor pid k, v => v.child = some pid ∧ k.Solo R Q { v with child := none }

end

variable {env : Env W} {U : Prop} {R : Nat → List Str → FdTable → Prop} {Q : α → View → Prop}

/-- A program that makes the same calls as a child is one. -/
theorem Prog.Rel.child {V : α → β → Prop} {R : List Str → FdTable → Prop} {p : Prog α}
    {q : Prog β} (h : p.Rel V q) {T : FdTable} (hq : q.Child env U R T) :
    p.Child env U R T := by
  induction h generalizing T with
  | ret _ => exact hq
  | ub => exact hq
  | exit n => trivial
  | call c _ ih =>
      intro x hx
      have := hq x hx
      cases happ : c.apply env x with
      | none => simpa only [happ] using this
      | some ry =>
          simp only [happ] at this ⊢
          exact ⟨this.1, ih _ (Call.valid_of_apply happ) this.2⟩
  | fork _ _ => exact hq
  | execvp argv _ ih => exact ⟨hq.1, ih hq.2⟩
  | waitpid pid _ _ => exact hq
  | waitFor pid _ _ => exact hq

theorem Prog.Rel.solo {V : α → β → Prop} {Q' : β → View → Prop} {p : Prog α} {q : Prog β}
    (h : p.Rel V q) (hV : ∀ a b v, V a b → Q' b v → Q a v) {v : View}
    (hq : q.Solo env U R Q' v) : p.Solo env U R Q v := by
  induction h generalizing v with
  | ret hab => exact hV _ _ _ hab hq
  | ub => exact hq
  | exit n => trivial
  | call c _ ih =>
      intro x hx hn
      have := hq x hx hn
      cases happ : c.apply env x with
      | none => simpa only [happ] using this
      | some ry =>
          simp only [happ] at this ⊢
          exact ih _ (Call.valid_of_apply happ) this
  | fork h ih => exact ⟨hq.1, (h .child).child hq.2.1, ih _ hq.2.2⟩
  | execvp argv _ _ => exact hq
  | waitpid pid _ ih => exact ⟨hq.1, ih hq.2⟩
  | waitFor pid _ ih => exact ⟨hq.1, ih hq.2⟩

/-- A program followed by another: the second starts where the first returns. A
child of the first that is still on its way never returns, so it never enters
the second. -/
theorem Prog.Child.bind {R : List Str → FdTable → Prop} {p : Prog α} {T : FdTable}
    (h : p.Child env U R T) (f : α → Prog β) : (p >>= f).Child env U R T := by
  induction p generalizing T with
  | ret a => exact h.elim
  | ub => exact h
  | exit n => trivial
  | call c k ih =>
      intro x hx
      have := h x hx
      cases happ : c.apply env x with
      | none => simpa only [happ] using this
      | some ry =>
          simp only [happ] at this ⊢
          exact ⟨this.1, ih _ this.2⟩
  | fork k ih => exact h.elim
  | execvp argv k ih => exact ⟨h.1, ih h.2⟩
  | waitpid pid k ih => exact h.elim
  | waitFor pid k ih => exact h.elim

theorem Prog.Solo.bind {Q' : β → View → Prop} {p : Prog α} {f : α → Prog β} {v : View}
    (h : p.Solo env U R Q v) (hf : ∀ a v, Q a v → (f a).Solo env U R Q' v) :
    (p >>= f).Solo env U R Q' v := by
  induction p generalizing v with
  | ret a => exact hf _ _ h
  | ub => exact h
  | exit n => trivial
  | call c k ih =>
      intro x hx hn
      have := h x hx hn
      cases happ : c.apply env x with
      | none => simpa only [happ] using this
      | some ry =>
          simp only [happ] at this ⊢
          exact ih _ this
  | fork k ih => exact ⟨h.1, h.2.1.bind f, ih _ h.2.2⟩
  | execvp argv k _ => exact h
  | waitpid pid k ih => exact ⟨h.1, ih h.2⟩
  | waitFor pid k ih => exact ⟨h.1, ih h.2⟩

/-! ## Rules for the calls -/

section
variable {R : List Str → FdTable → Prop} {T : FdTable}

theorem Prog.Child.close {fd : Int} {k : Unit → Prog α}
    (h : (k ()).Child env U R (T.close fd)) : (Prog.call (.close fd) k).Child env U R T :=
  fun x hx => ⟨rfl, by simpa only [hx] using h⟩

theorem Prog.Child.dup2 {old new : Int} {k : Unit → Prog α}
    (h : (k ()).Child env U R (T.dup2 old new)) :
    (Prog.call (.dup2 old new) k).Child env U R T :=
  fun x hx => ⟨rfl, by simpa only [hx] using h⟩

/-- `printf` and `glob` leave the descriptors alone. -/
theorem Prog.Child.printf {t : Str} {k : Unit → Prog α} (h : (k ()).Child env U R T) :
    (Prog.call (.printf t) k).Child env U R T :=
  fun x hx => ⟨rfl, by simpa only [hx] using h⟩

theorem Prog.Child.glob {pat : Str} {k : Option (List Str) → Prog α}
    (h : ∀ w, (k (env.glob w pat)).Child env U R T) :
    (Prog.call (.glob pat) k).Child env U R T :=
  fun x hx => ⟨rfl, by simpa only [hx] using h x.world⟩

end

section
variable {v : View}

theorem Prog.Solo.close {fd : Int} {k : Unit → Prog α}
    (h : (k ()).Solo env U R Q { v with fds := v.fds.close fd }) :
    (Prog.call (.close fd) k).Solo env U R Q v :=
  fun x hx hn => by simpa only [Call.apply, hx, hn] using h

theorem Prog.Solo.dup2 {old new : Int} {k : Unit → Prog α}
    (h : (k ()).Solo env U R Q { v with fds := v.fds.dup2 old new }) :
    (Prog.call (.dup2 old new) k).Solo env U R Q v :=
  fun x hx hn => by simpa only [Call.apply, hx, hn] using h

theorem Prog.Solo.printf {t : Str} {k : Unit → Prog α} (h : (k ()).Solo env U R Q v) :
    (Prog.call (.printf t) k).Solo env U R Q v :=
  fun x hx hn => by simpa only [Call.apply, hx, hn] using h

theorem Prog.Solo.glob {pat : Str} {k : Option (List Str) → Prog α}
    (h : ∀ w, (k (env.glob w pat)).Solo env U R Q v) :
    (Prog.call (.glob pat) k).Solo env U R Q v :=
  fun x hx hn => by simpa only [Call.apply, hx, hn] using h x.world

theorem Prog.Solo.pipe {k : Option (Int × Int) → Prog α}
    (h : (k (some (v.fds.pipeFds v.pipes))).Solo env U R Q
      { v with pipes := v.pipes + 1, fds := v.fds.pipe v.pipes }) :
    (Prog.call .pipe k).Solo env U R Q v :=
  fun x hx hn => by simpa only [Call.apply, hx, hn] using h

theorem Prog.Solo.perror {t : Str} {k : Unit → Prog α} (h : (k ()).Solo env U R Q v) :
    (Prog.call (.perror t) k).Solo env U R Q v :=
  fun x hx hn => by simpa only [Call.apply, hx, hn] using h

/-- `strcasecmp` with a NULL argument is undefined behaviour. -/
theorem Prog.Solo.strcasecmp {s : Option Str} {t : Str} {k : Bool → Prog α}
    (hnull : s = none → U) (h : ∀ r, s = some r → (k (eqIgnoreCase r t)).Solo env U R Q v) :
    (Prog.call (.strcasecmp s t) k).Solo env U R Q v := by
  intro x hx hn
  cases s with
  | none => exact hnull rfl
  | some r => simpa only [Call.apply, hx, hn] using h r rfl

theorem Prog.Solo.openFile {path : Str} {how : OpenHow} {k : Int → Prog α}
    (hfail : (k (-1)).Solo env U R Q v)
    (hopen : (k v.fds.lowest).Solo env U R Q
      { v with fds := v.fds.put v.fds.lowest (.file path how) }) :
    (Prog.call (.openFile path how) k).Solo env U R Q v := by
  intro x hx hn
  cases ho : env.openFile x.world path how with
  | none => simpa only [Call.apply, ho, hx, hn] using hfail
  | some w => simpa only [Call.apply, ho, hx, hn] using hopen

theorem Prog.Solo.dup {fd : Int} {o : Ofd} {k : Int → Prog α} (ho : v.fds.get fd = some o)
    (h : (k v.fds.lowest).Solo env U R Q { v with fds := v.fds.put v.fds.lowest o }) :
    (Prog.call (.dup fd) k).Solo env U R Q v :=
  fun x hx hn => by simpa only [Call.apply, hx, hn, ho] using h

end

/-! ## What holds in every reachable state -/

section
variable (M : Machine W α) (U : Prop) (R : Nat → List Str → FdTable → Prop)
  (Q : α → View → Prop)

/-- The view that the shell has when its process table has this shape. -/
def Sys.view (s : Sys W α) (sh : Proc α) (done : List (Proc α)) (kid : Option (Proc α)) : View where
  child := kid.map fun _ => done.length + 1
  procs := s.procs.length
  pipes := s.pipes
  fds := sh.fds

def ShellOk (v : View) (sh : Proc α) : Prop :=
  match sh.code with
  | .prog p => p.Solo M.env U R Q v
  | .image _ _ _ _ => False
  | .exiting _ | .zombie _ | .reaped _ => True

def KidOk (R : List Str → FdTable → Prop) (p : Proc α) : Prop :=
  match p.code with
  | .prog q => q.Child M.env U R p.fds
  | .image _ _ _ _ | .exiting _ | .zombie _ => True
  | .reaped _ => M.sigchldIgnored = true

/-- The state of a shell whose program is `Solo`. -/
def SoloInv (s : Sys W α) : Prop :=
  ∃ sh done kid, Shape s sh done kid ∧ ShellOk M U R Q (s.view sh done kid) sh ∧
    ∀ p ∈ kid, KidOk M U (R (done.length + 1)) p

end

theorem WriteStep.cases {M : Machine W α} {s s' : Sys W α} {pid : Nat} {p p' bad : Proc α}
    {b : Byte} (h : WriteStep M s pid p b p' bad s') :
    ∃ q, (q = p' ∨ q = bad ∨ q = p.goto (M.ended .sigpipe)) ∧
      s'.procs = s.procs.set pid q ∧ s'.pipes = s.pipes := by
  unfold WriteStep at h
  split at h
  · exact ⟨bad, .inr (.inl rfl), by rw [h]; exact ⟨rfl, rfl⟩⟩
  · exact ⟨bad, .inr (.inl rfl), by rw [h]; exact ⟨rfl, rfl⟩⟩
  · rcases h with ⟨-, h⟩ | ⟨-, -, h⟩
    · exact ⟨_, .inr (.inr rfl), by rw [h]; exact ⟨rfl, rfl⟩⟩
    · exact ⟨p', .inl rfl, by rw [h]; exact ⟨rfl, rfl⟩⟩
  · exact ⟨p', .inl rfl, by rw [h]; exact ⟨rfl, rfl⟩⟩

theorem ReadStep.cases {M : Machine W α} {s s' : Sys W α} {pid : Nat} {p : Proc α}
    {img : Image} {input output : Str} {eof : Bool}
    (h : ReadStep M s pid p img input eof output s') :
    ∃ c, (c = M.ended .badFd ∨ ∃ input eof, c = .image img input eof output) ∧
      s'.procs = s.procs.set pid (p.goto c) ∧ s'.pipes = s.pipes := by
  unfold ReadStep at h
  split at h
  · exact ⟨_, .inl rfl, by rw [h]; exact ⟨rfl, rfl⟩⟩
  · exact ⟨_, .inl rfl, by rw [h]; exact ⟨rfl, rfl⟩⟩
  · unfold ReadFrom at h
    split at h
    · exact ⟨_, .inr ⟨_, _, rfl⟩, by rw [h]; exact ⟨rfl, rfl⟩⟩
    · exact ⟨_, .inr ⟨_, _, rfl⟩, by rw [h.2]; exact ⟨rfl, rfl⟩⟩

section
variable {M : Machine W α} {s s' : Sys W α} {sh p : Proc α} {done : List (Proc α)}
  {kid : Option (Proc α)}

theorem kidOk_ended {R : List Str → FdTable → Prop} (e : Ending) :
    KidOk M U R (p.goto (M.ended e)) := by
  by_cases h : M.sigchldIgnored = true
  · simp [KidOk, Proc.goto, Machine.ended, h]
  · simp [KidOk, Proc.goto, Machine.ended, h]

/-- A step of the child: it stays a child that is as it should be, and makes no
pipe. -/
theorem KidOk.step {R : List Str → FdTable → Prop} {pid : Nat} (h : KidOk M U R p)
    (hs : ProcStep M s pid p s') : ∃ p', s'.procs = s.procs.set pid p' ∧
      KidOk M U R p' ∧ p'.parent = p.parent ∧ s'.pipes = s.pipes := by
  obtain ⟨parent, code, fds, buf⟩ := p
  cases code with
  | prog q =>
      simp only [KidOk] at h
      simp only [ProcStep] at hs
      cases q with
      | ret a => exact h.elim
      | ub => exact hs.elim
      | exit n =>
          simp only [ProgStep] at hs
          subst hs
          exact ⟨_, rfl, trivial, rfl, rfl⟩
      | call c k =>
          have := h (s.ctx ⟨parent, .prog (.call c k), fds, buf⟩) rfl
          simp only [ProgStep] at hs
          cases happ : c.apply M.env (s.ctx ⟨parent, .prog (.call c k), fds, buf⟩) with
          | none =>
              simp only [happ] at this hs
              subst hs
              exact ⟨_, rfl, this, rfl, rfl⟩
          | some ry =>
              simp only [happ] at this hs
              subst hs
              exact ⟨_, rfl, this.2, rfl, this.1⟩
      -- a child neither forks nor waits
      | fork k => exact h.elim
      | execvp argv k =>
          simp only [ProgStep] at hs
          split at hs
          · subst hs
            exact ⟨_, rfl, h.2, rfl, rfl⟩
          · subst hs
            exact ⟨_, rfl, trivial, rfl, rfl⟩
      | waitpid c k => exact h.elim
      | waitFor c k => exact h.elim
  -- what a command does touches no table and makes no pipe
  | image img input eof output =>
      simp only [ProcStep] at hs
      split at hs
      · obtain ⟨c, hc, hp, hn⟩ := hs.cases
        refine ⟨_, hp, ?_, rfl, hn⟩
        rcases hc with rfl | ⟨_, _, rfl⟩
        · exact kidOk_ended _
        · trivial
      · obtain ⟨q, hq, hp, hn⟩ := hs.cases
        refine ⟨q, hp, ?_, ?_, hn⟩
        · rcases hq with rfl | rfl | rfl
          · trivial
          · exact kidOk_ended _
          · exact kidOk_ended _
        · rcases hq with rfl | rfl | rfl <;> rfl
      · subst hs
        exact ⟨_, rfl, kidOk_ended _, rfl, rfl⟩
  | exiting n =>
      simp only [ProcStep] at hs
      split at hs
      · subst hs
        exact ⟨_, rfl, kidOk_ended _, rfl, rfl⟩
      · obtain ⟨q, hq, hp, hn⟩ := hs.cases
        refine ⟨q, hp, ?_, ?_, hn⟩
        · rcases hq with rfl | rfl | rfl
          · trivial
          · trivial
          · exact kidOk_ended _
        · rcases hq with rfl | rfl | rfl <;> rfl
  | zombie e => exact hs.elim
  | reaped e => exact hs.elim

/-- The effect of waiting for the child: it had ended, and is now one of those
that have been waited for. -/
theorem WaitpidStep.cases {c : Nat} {k : Prog α} (hsh : Shape s sh done kid)
    (hkid : (kid.map fun _ => done.length + 1) = some c)
    (h : WaitpidStep s 0 sh c k s') :
    ∃ q e p, kid = some q ∧ (q.code = .zombie e ∨ q.code = .reaped e) ∧ p.code = .reaped e ∧
      Shape s' (sh.goto (.prog k)) (done ++ [p]) none ∧ s'.procs.length = s.procs.length ∧
      s'.pipes = s.pipes ∧ s'.unread = s.unread ∧ s'.written = s.written := by
  cases kid with
  | none => cases hkid
  | some p =>
      cases hkid
      have hget := hsh.getElem?_kid
      simp only [WaitpidStep, hget, hsh.kid p rfl, if_true] at h
      split at h
      · rename_i e he
        subst h
        have h1 : Shape (s.update (done.length + 1) (p.goto (.reaped e))) sh done
            (some (p.goto (.reaped e))) := hsh.setKid rfl (hsh.kid p rfl)
        have h2 : Shape ((s.update (done.length + 1) (p.goto (.reaped e))).update 0
            (sh.goto (.prog k))) (sh.goto (.prog k)) done (some (p.goto (.reaped e))) :=
          h1.setShell rfl hsh.shell
        exact ⟨p, e, _, rfl, .inl he, rfl, h2.settle rfl, by simp [Sys.update], rfl, rfl, rfl⟩
      · rename_i e he
        subst h
        have h1 : Shape (s.update 0 (sh.goto (.prog k))) (sh.goto (.prog k)) done (some p) :=
          hsh.setShell rfl hsh.shell
        exact ⟨p, e, p, rfl, .inr he, he, h1.settle he, by simp [Sys.update], rfl, rfl, rfl⟩
      · exact h.elim

/-- `wait` in the loop of `waitFor`: it returns the child, or finds no child
left that has not been waited for. -/
theorem WaitForStep.cases {c : Nat} {k : Prog α} (hsh : Shape s sh done kid)
    (hkid : (kid.map fun _ => done.length + 1) = some c)
    (h : WaitForStep s 0 sh c k s') :
    (∃ p, Shape s' (sh.goto (.prog k)) (done ++ [p]) none ∧
      s'.procs.length = s.procs.length ∧ s'.pipes = s.pipes) ∨ s' = s := by
  rcases h with ⟨d, q, e, hq, hparent, hcode, rfl⟩ | ⟨-, rfl⟩
  · left
    rcases hsh.getElem?_cases hq with ⟨rfl, rfl⟩ | hmem | ⟨rfl, rfl⟩
    · rw [hsh.shell] at hparent
      cases hparent
    · obtain ⟨e', he'⟩ := (hsh.done q hmem).2
      rw [he'] at hcode
      cases hcode
    · cases hkid
      have h1 : Shape (s.update (done.length + 1) (q.goto (.reaped e))) sh done
          (some (q.goto (.reaped e))) := hsh.setKid rfl (hsh.kid q rfl)
      rw [if_pos rfl]
      have h2 : Shape ((s.update (done.length + 1) (q.goto (.reaped e))).update 0
          (sh.goto (.prog k))) (sh.goto (.prog k)) done (some (q.goto (.reaped e))) :=
        h1.setShell rfl hsh.shell
      exact ⟨_, h2.settle rfl, by simp [Sys.update], rfl⟩
  · exact .inr rfl

theorem shellOk_ended {v : View} {sh : Proc α} (e : Ending) :
    ShellOk M U R Q v (sh.goto (M.ended e)) := by
  by_cases h : M.sigchldIgnored = true
  · simp [ShellOk, Proc.goto, Machine.ended, h]
  · simp [ShellOk, Proc.goto, Machine.ended, h]

/-- A step of the shell. -/
theorem ShellOk.step (hnext : ∀ a v q, Q a v → M.next a = some q → q.Solo M.env U R Q v)
    (hsh : Shape s sh done kid) (h : ShellOk M U R Q (s.view sh done kid) sh)
    (hkid : ∀ p ∈ kid, KidOk M U (R (done.length + 1)) p) (hs : ProcStep M s 0 sh s') :
    SoloInv M U R Q s' := by
  have hlen := hsh.length_procs
  obtain ⟨parent, code, fds, buf⟩ := sh
  -- the shell goes on with another code, and the child is as before
  have hstay : ∀ sh' : Proc α, s'.procs = s.procs.set 0 sh' → sh'.parent = none →
      ShellOk M U R Q (s'.view sh' done kid) sh' → SoloInv M U R Q s' :=
    fun sh' hp h0 h' => ⟨sh', done, kid, hsh.setShell hp h0, h', hkid⟩
  have hset : ∀ sh' : Proc α, (s.procs.set 0 sh').length = s.procs.length := by simp
  cases code with
  | prog p =>
      simp only [ShellOk] at h
      simp only [ProcStep] at hs
      cases p with
      | ret a =>
          obtain ⟨q, hq, rfl⟩ := hs
          refine hstay _ rfl hsh.shell ?_
          simpa only [ShellOk, Sys.view, Sys.update, Proc.goto, hset] using hnext a _ q h hq
      | ub => exact hs.elim
      | exit n =>
          simp only [ProgStep] at hs
          subst hs
          exact hstay _ rfl hsh.shell trivial
      | call c k =>
          have := h (s.ctx ⟨parent, .prog (.call c k), fds, buf⟩) rfl rfl
          simp only [ProgStep] at hs
          cases happ : c.apply M.env (s.ctx ⟨parent, .prog (.call c k), fds, buf⟩) with
          | none =>
              simp only [happ] at this hs
              subst hs
              exact hstay _ rfl hsh.shell this
          | some ry =>
              simp only [happ] at this hs
              subst hs
              refine hstay _ rfl hsh.shell ?_
              simpa only [ShellOk, Sys.view, Sys.commit, hset] using this
      | fork k =>
          obtain ⟨hnone, hchild, hparent⟩ := h
          cases kid with
          | some p => cases hnone
          | none =>
          simp only [ProgStep] at hs
          subst hs
          have hlen' : s.procs.length = done.length + 1 := by simpa using hlen
          refine ⟨_, done, _, hsh.spawn hsh.shell rfl, ?_, ?_⟩
          · simpa [ShellOk, Sys.view, Sys.spawn, Proc.goto, hlen'] using hparent
          · intro q hq
            cases hq
            simpa [KidOk, Sys.view, hlen'] using hchild
      | execvp argv k => exact h.elim
      | waitpid c k =>
          obtain ⟨_, _, p, -, -, -, hshape, hprocs, hpipes, -⟩ := WaitpidStep.cases hsh h.1 hs
          refine ⟨_, _, none, hshape, ?_, by simp⟩
          simpa only [ShellOk, Sys.view, Proc.goto, hprocs, hpipes, Option.map_none] using h.2
      | waitFor c k =>
          rcases WaitForStep.cases hsh h.1 hs with ⟨p, hshape, hprocs, hpipes⟩ | rfl
          · refine ⟨_, _, none, hshape, ?_, by simp⟩
            simpa only [ShellOk, Sys.view, Proc.goto, hprocs, hpipes, Option.map_none] using h.2
          · exact ⟨_, done, kid, hsh, h, hkid⟩
  | image img input eof output => exact h.elim
  | exiting n =>
      simp only [ProcStep] at hs
      split at hs
      · subst hs
        exact hstay _ rfl hsh.shell (shellOk_ended _)
      · obtain ⟨q, hq, hp, hn⟩ := hs.cases
        refine hstay q hp ?_ ?_
        · rcases hq with rfl | rfl | rfl <;> exact hsh.shell
        · rcases hq with rfl | rfl | rfl
          · trivial
          · trivial
          · exact shellOk_ended _
  | zombie e => exact hs.elim
  | reaped e => exact hs.elim

end

/-- In every state that can be reached from the start of a `Solo` program. -/
theorem Prog.Solo.reachable {M : Machine W α} {p : Prog α} {T : FdTable} {w : W} {n : Nat}
    {unread : Ofd → Str} (h : p.Solo M.env U R Q ⟨none, 1, n, T⟩)
    (hnext : ∀ a v q, Q a v → M.next a = some q → q.Solo M.env U R Q v) {s : Sys W α}
    (hs : Reachable (Step M) (Sys.start p T w n unread) s) : SoloInv M U R Q s := by
  refine hs.invariant ?_ ?_
  · exact ⟨_, [], none, ⟨rfl, rfl, by simp, by simp⟩, h, by simp⟩
  · rintro s s' ⟨sh, done, kid, hsh, hshell, hkid⟩ hstep
    rcases hsh.step_cases hstep with hstep | ⟨p, rfl, hstep⟩
    · exact hshell.step hnext hsh hkid hstep
    · obtain ⟨p', hp, hok, hparent, hpipes⟩ := (hkid p rfl).step hstep
      have hsh' := hsh.setKid hp (hparent.trans (hsh.kid p rfl))
      refine ⟨sh, done, some p', hsh', ?_, by simpa using hok⟩
      have hlen : s'.procs.length = s.procs.length := by rw [hp, List.length_set]
      simpa only [Sys.view, hlen, hpipes, Option.map_some] using hshell

namespace SoloInv

variable {M : Machine W α} {s : Sys W α} {pid : Nat} {p : Proc α}

/-- A process that has returned is the shell, and `Q` holds of what it knows. -/
theorem ret {a : α} (h : SoloInv M U R Q s) (hp : s.procs[pid]? = some p)
    (hcode : p.code = .prog (.ret a)) : pid = 0 ∧ ∃ v, Q a v ∧ v.fds = p.fds ∧
      (v.child = none → ∀ j q, j ≠ 0 → s.procs[j]? = some q → ∃ e, q.code = .reaped e) := by
  obtain ⟨sh, done, kid, hsh, hshell, hkid⟩ := h
  rcases hsh.getElem?_cases hp with ⟨rfl, rfl⟩ | hmem | ⟨rfl, rfl⟩
  · refine ⟨rfl, s.view p done kid, by simpa only [ShellOk, hcode, Prog.Solo] using hshell, rfl, ?_⟩
    intro hnone j q hj hq
    rcases hsh.getElem?_cases hq with ⟨rfl, -⟩ | hmem | ⟨-, rfl⟩
    · exact absurd rfl hj
    · exact (hsh.done q hmem).2
    · cases hnone
  · obtain ⟨e, he⟩ := (hsh.done p hmem).2
    rw [he] at hcode
    cases hcode
  · have := hkid p rfl
    simp only [KidOk, hcode] at this
    exact this.elim

/-- A process at a call of `execvp` is a child of which `R` holds. -/
theorem execvp {argv : List Str} {k : Prog α} (h : SoloInv M U R Q s)
    (hp : s.procs[pid]? = some p) (hcode : p.code = .prog (.execvp argv k)) :
    R pid argv p.fds := by
  obtain ⟨sh, done, kid, hsh, hshell, hkid⟩ := h
  rcases hsh.getElem?_cases hp with ⟨rfl, rfl⟩ | hmem | ⟨rfl, rfl⟩
  · simp only [ShellOk, hcode] at hshell
    exact hshell.elim
  · obtain ⟨e, he⟩ := (hsh.done p hmem).2
    rw [he] at hcode
    cases hcode
  · have := hkid p rfl
    simp only [KidOk, hcode] at this
    exact this.1

/-- When undefined behaviour is ruled out, no process runs into it. -/
theorem not_ub (h : SoloInv M False R Q s) (hp : s.procs[pid]? = some p) :
    p.code ≠ .prog .ub := by
  intro hcode
  obtain ⟨sh, done, kid, hsh, hshell, hkid⟩ := h
  rcases hsh.getElem?_cases hp with ⟨rfl, rfl⟩ | hmem | ⟨rfl, rfl⟩
  · simp only [ShellOk, hcode] at hshell
    exact hshell
  · obtain ⟨e, he⟩ := (hsh.done p hmem).2
    rw [he] at hcode
    cases hcode
  · have := hkid p rfl
    simp only [KidOk, hcode] at this
    exact this

end SoloInv

end UnixSys
