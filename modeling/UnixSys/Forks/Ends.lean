import UnixSys.Forks.Processes

/-!
# Ends — the termination statement of `tryFork`

In `tryFork` every process waits for those that it has made. The first process is then the last
one to end, and the line that it prints is the last line, whatever the order in which the
processes run, and whichever calls of `fork` fail.
-/

namespace UnixSys.Forks

open Forks.System

/-- The line that ends a run. -/
def Line.IsEnd : Line → Prop
  | .endOf _ _ => True
  | .caseNumber _ | .pid _ _ | .initial _ => False

/-! ## Programs that wait -/

/-- Up to the loop of `wait`, which comes before every end. -/
def Prog.Waits (n : Int) : Prog → Prop
  | .printf line next => (∀ self parent, ¬ (line self parent).IsEnd) ∧ next.Waits n
  | .eprintf _ next => next.Waits n
  | .fork child parent failed => child.Waits n ∧ parent.Waits n ∧ failed.Waits n
  | .waitAll next => .waitAll next = terminate n
  | .ifFirst _ _ | .exit => False

/-- Behind the loop of `wait`, in process `i`. -/
inductive Prog.Past (n : Int) (i : Nat) : Prog → Prop where
  | test : Past n i (.ifFirst (.printf (fun self _ => .endOf n self) .exit) .exit)
  | last (hi : i = 0) : Past n i (.printf (fun self _ => .endOf n self) .exit)
  | exit : Past n i .exit

section
variable {n : Int} {s : Stmt}

theorem waits_terminate (n : Int) : (terminate n).Waits n := rfl

theorem waits_fork (child parent failed : Prog) (hchild : child.Waits n)
    (hparent : parent.Waits n) (hfailed : failed.Waits n) :
    (Prog.fork child parent failed).Waits n := ⟨hchild, hparent, hfailed⟩

theorem waits_tryFork (h : forks n = some s) : (tryFork n).Waits n := by
  refine ⟨fun _ _ => id, ?_⟩
  simp only [h]
  exact keeps_of_forks waits_fork h _ ⟨fun _ _ => id, waits_terminate n⟩

end

/-! ## The invariant of the processes -/

/-- Every process that `i` has made has ended, and `i` has learnt it. -/
def Settled (procs : List Proc) (i : Nat) : Prop :=
  ∀ q ∈ procs, q.parent = .proc i → q.status = .reaped

/-- Where a process is: before its loop of `wait`, or behind it. -/
def Proc.Fine (n : Int) (procs : List Proc) (i : Nat) (p : Proc) : Prop :=
  match p.status with
  | .running prog => prog.Waits n ∨ prog.Past n i ∧ Settled procs i
  | .zombie | .reaped => Settled procs i

def AllFine (n : Int) (procs : List Proc) : Prop :=
  ∀ (i : Nat) p, procs[i]? = some p → p.Fine n procs i

section
variable {n : Int} {procs procs' : List Proc} {i k : Nat} {p p' q : Proc} {prog : Prog}

/-- A change that keeps what the process needs. -/
theorem Proc.Fine.mono (h : q.Fine n procs k) (hsettled : Settled procs k → Settled procs' k) :
    q.Fine n procs' k := by
  rw [Proc.Fine] at h ⊢
  cases hstatus : q.status with
  | running prog =>
      simp only [hstatus] at h ⊢
      exact h.imp_right fun hp => ⟨hp.1, hsettled hp.2⟩
  | zombie =>
      simp only [hstatus] at h ⊢
      exact hsettled h
  | reaped =>
      simp only [hstatus] at h ⊢
      exact hsettled h

theorem fine_of_running (hp : p.status = .running prog) :
    p.Fine n procs i ↔ prog.Waits n ∨ prog.Past n i ∧ Settled procs i := by
  rw [Proc.Fine, hp]

/-- A process that runs is not one that its parent has learnt the end of. -/
theorem Settled.ne_of_running (h : Settled procs k) (hi : procs[i]? = some p)
    (hp : p.status = .running prog) : p.parent ≠ .proc k := by
  intro hparent
  cases hp.symm.trans (h p (List.mem_of_getElem? hi) hparent)

/-- One process is changed: it was running, or it has now been waited for. -/
theorem Settled.set (h : Settled procs k) (hi : procs[i]? = some p)
    (hparent : p'.parent = p.parent)
    (hkeep : (∃ prog, p.status = .running prog) ∨ p'.status = .reaped) :
    Settled (procs.set i p') k := by
  intro q hq hqk
  rcases List.mem_or_eq_of_mem_set hq with hq | rfl
  · exact h q hq hqk
  · rcases hkeep with ⟨prog, hprog⟩ | hreaped
    · exact absurd (hparent ▸ hqk) (h.ne_of_running hi hprog)
    · exact hreaped

theorem Settled.append (h : Settled procs k) (hp : p.parent ≠ .proc k) :
    Settled (procs ++ [p]) k := by
  intro q hq hqk
  rcases List.mem_append.mp hq with hq | hq
  · exact h q hq hqk
  · rw [List.mem_singleton.mp hq] at hqk
    exact absurd hqk hp

theorem AllFine.set (h : AllFine n procs) (hi : procs[i]? = some p)
    (hparent : p'.parent = p.parent)
    (hkeep : (∃ prog, p.status = .running prog) ∨ p'.status = .reaped)
    (hfine : p'.Fine n (procs.set i p') i) : AllFine n (procs.set i p') := by
  intro k q hq
  by_cases hk : k = i
  · subst hk
    rw [List.getElem?_set_self (List.getElem?_eq_some_iff.mp hi).1] at hq
    exact Option.some.inj hq ▸ hfine
  · rw [List.getElem?_set_ne (Ne.symm hk)] at hq
    exact (h k q hq).mono fun hs => hs.set hi hparent hkeep

theorem AllFine.append (h : AllFine n procs) (hp : p.parent = .proc i)
    (hi : ¬ Settled procs i ∨ ∀ q, procs[i]? = some q → q.Fine n (procs ++ [p]) i)
    (hfine : p.Fine n (procs ++ [p]) procs.length) : AllFine n (procs ++ [p]) := by
  intro k q hq
  rw [List.getElem?_append] at hq
  split at hq
  · by_cases hk : k = i
    · subst hk
      rcases hi with hno | hyes
      · exact (h k q hq).mono fun hs => absurd hs hno
      · exact hyes q hq
    · refine (h k q hq).mono fun hs => hs.append fun heq => hk ?_
      rw [hp] at heq
      exact (Parent.proc.inj heq).symm
  · rw [List.getElem?_singleton] at hq
    split at hq
    · obtain rfl := Option.some.inj hq
      rwa [show k = procs.length by omega]
    · cases hq

/-- What a process that runs is at, and that its parent runs. -/
theorem AllFine.getppid {S : System} (h : AllFine n S.procs) (hparents : Parents S.procs)
    (hi : S.procs[i]? = some p) (hp : p.status = .running prog) :
    S.getppid p = p.parent := by
  by_cases hzero : i = 0
  · subst hzero
    obtain ⟨r, hr, hstarter⟩ := hparents.first
    obtain rfl := Option.some.inj (hr.symm.trans hi)
    rw [System.getppid, hstarter]
  · obtain ⟨k, hk, hparent⟩ := hparents.rest i p hi hzero
    obtain ⟨⟨parent, status, buffer⟩, hq⟩ : ∃ q, S.procs[k]? = some q :=
      ⟨_, List.getElem?_eq_getElem (Nat.lt_trans hk (List.getElem?_eq_some_iff.mp hi).1)⟩
    have hfine := h k _ hq
    rw [System.getppid, hparent]
    simp only [hq]
    cases status with
    | running prog' => rfl
    | zombie => exact absurd hparent (Settled.ne_of_running hfine hi hp)
    | reaped => exact absurd hparent (Settled.ne_of_running hfine hi hp)

theorem AllFine.next {next : Prog} (h : AllFine n procs) (hi : procs[i]? = some p)
    (hp : p.status = .running prog) (hparent : p'.parent = p.parent)
    (hp' : p'.status = .running next)
    (hnext : next.Waits n ∨ next.Past n i ∧ Settled procs i) : AllFine n (procs.set i p') := by
  have hkeep : (∃ prog, p.status = .running prog) ∨ p'.status = .reaped := .inl ⟨prog, hp⟩
  refine h.set hi hparent hkeep ?_
  rw [fine_of_running hp']
  exact hnext.imp_right fun hpast => ⟨hpast.1, hpast.2.set hi hparent hkeep⟩

end

section
variable {n : Int} {tty mayFail : Bool} {S S' : System}

theorem fine_start {prog : Prog} (h : prog.Waits n) : AllFine n (start prog).procs := by
  intro i p hi
  have hi : [Proc.mk .starter (.running prog) []][i]? = some p := hi
  rw [List.getElem?_singleton] at hi
  split at hi
  · obtain rfl := Option.some.inj hi
    exact .inl h
  · cases hi

/-- The step of the invariant, one call at a time. -/
theorem fine_step (h : AllFine n S.procs) (hparents : Parents S.procs)
    (hstep : Step tty mayFail S S') : AllFine n S'.procs := by
  cases hstep with
  | @printf i p line next hi hp =>
      have hnext : next.Waits n ∨ next.Past n i ∧ Settled S.procs i := by
        rcases (fine_of_running hp).mp (h i p hi) with hwaits | ⟨hpast, hsettled⟩
        · exact .inl hwaits.2
        · cases hpast
          exact .inr ⟨.exit, hsettled⟩
      cases tty with
      | true => exact h.next hi hp rfl rfl hnext
      | false => exact h.next hi hp rfl rfl hnext
  | @eprintf i p text next hi hp =>
      rcases (fine_of_running hp).mp (h i p hi) with hwaits | ⟨hpast, -⟩
      · exact h.next hi hp rfl rfl (.inl hwaits)
      · cases hpast
  | @fork i p child parent failed hi hp =>
      rcases (fine_of_running hp).mp (h i p hi) with ⟨hchild, hparent, -⟩ | ⟨hpast, -⟩
      · have hset : AllFine n (S.procs.set i { p with status := .running parent }) :=
          h.next hi hp rfl rfl (.inl hparent)
        refine hset.append (i := i) rfl (.inr fun q hq => ?_) (.inl hchild)
        rw [List.getElem?_set_self (List.getElem?_eq_some_iff.mp hi).1] at hq
        obtain rfl := Option.some.inj hq
        exact .inl hparent
      · cases hpast
  | @forkFailed i p child parent failed hi hp _ =>
      rcases (fine_of_running hp).mp (h i p hi) with ⟨-, -, hfailed⟩ | ⟨hpast, -⟩
      · exact h.next hi hp rfl rfl (.inl hfailed)
      · cases hpast
  | @reap i j p q next hi hp hj hparent hq =>
      have hsettled : Settled S.procs j := by
        have hfine := h j q hj
        rw [Proc.Fine, hq] at hfine
        exact hfine
      exact h.set hj rfl (.inr rfl) (hsettled.set hj rfl (.inr rfl))
  -- with no child left to wait for the process is past its waits
  | @waited i p next hi hp hnone =>
      rcases (fine_of_running hp).mp (h i p hi) with hwaits | ⟨hpast, -⟩
      · obtain rfl := Prog.waitAll.inj hwaits
        exact h.next hi hp rfl rfl (.inr ⟨.test, hnone⟩)
      · cases hpast
  -- only the first process was started from outside
  | @ifFirst i p yes no hi hp =>
      rcases (fine_of_running hp).mp (h i p hi) with hwaits | ⟨hpast, hsettled⟩
      · exact hwaits.elim
      · cases hpast
        refine h.next hi hp rfl rfl (.inr ⟨?_, hsettled⟩)
        rw [h.getppid hparents hi hp]
        split
        · next hstarter =>
            refine .last ?_
            by_contra hne
            obtain ⟨k, -, hk⟩ := hparents.rest i p hi hne
            cases hstarter.symm.trans hk
        · exact .exit
  | @exit i p hi hp =>
      rcases (fine_of_running hp).mp (h i p hi) with hwaits | ⟨-, hsettled⟩
      · exact hwaits.elim
      · have hkeep : (∃ prog, p.status = .running prog) ∨ Status.zombie = .reaped :=
          .inl ⟨_, hp⟩
        exact h.set hi rfl hkeep (hsettled.set hi rfl hkeep)

theorem fine {prog : Prog} (hwaits : prog.Waits n)
    (hreach : Reachable (Step tty mayFail) (start prog) S) : AllFine n S.procs := by
  have hinv : Parents S.procs ∧ AllFine n S.procs :=
    hreach.invariant (I := fun S => Parents S.procs ∧ AllFine n S.procs)
      ⟨parents_start prog, fine_start hwaits⟩
      fun _ _ h hstep => ⟨parents_step h.1 hstep, fine_step h.2 h.1 hstep⟩
  exact hinv.2

/-- When the first process is behind its loop, all the others have ended. -/
theorem reaped_of_settled (h : AllFine n S.procs) (hparents : Parents S.procs)
    (hfirst : Settled S.procs 0) {j : Nat} {q : Proc} (hj : S.procs[j]? = some q) (hne : j ≠ 0) :
    q.status = .reaped := by
  induction j using Nat.strong_induction_on generalizing q with
  | _ j ih =>
      obtain ⟨i, hi, hparent⟩ := hparents.rest j q hj hne
      have hmem := List.mem_of_getElem? hj
      by_cases hzero : i = 0
      · exact hfirst q hmem (hzero ▸ hparent)
      · obtain ⟨p, hp⟩ : ∃ p, S.procs[i]? = some p :=
          ⟨_, List.getElem?_eq_getElem (Nat.lt_trans hi (List.getElem?_eq_some_iff.mp hj).1)⟩
        have hreaped := ih i hi hp hzero
        have hfine := h i p hp
        rw [Proc.Fine, hreaped] at hfine
        exact hfine q hmem hparent

end

/-! ## The invariant of the lines -/

/-- Without a line that ends a run. -/
def Free (lines : List Line) : Prop := ∀ l ∈ lines, ¬ l.IsEnd

theorem Free.append {l l' : List Line} (h : Free l) (h' : Free l') : Free (l ++ l') :=
  fun x hx => (List.mem_append.mp hx).elim (h x) (h' x)

/-- With one such line, that of the first process, at the end. -/
def EndsOnce (n : Int) (lines : List Line) : Prop := ∃ pre, lines = pre ++ [.endOf n 0] ∧ Free pre

/-- Whether a process has only to end, or has ended. -/
def Proc.AtEnd (p : Proc) : Prop :=
  match p.status with
  | .running prog => prog = .exit
  | .zombie | .reaped => True

theorem atEnd_of_running {p : Proc} {prog : Prog} (hp : p.status = .running prog) :
    p.AtEnd ↔ prog = .exit := by
  rw [Proc.AtEnd, hp]

/-- What has been written, with what the first process has still to write, ends with the line
exactly when that process is at its end. -/
structure Ends (n : Int) (tty : Bool) (S : System) : Prop where
  buffers : tty = true → ∀ q ∈ S.procs, q.buffer = []
  others : ∀ (i : Nat) p, S.procs[i]? = some p → i ≠ 0 → Free p.buffer
  ended : ∀ q ∈ S.procs, (∀ prog, q.status ≠ .running prog) → q.buffer = []
  first : ∀ p, S.procs[0]? = some p → (p.AtEnd → EndsOnce n (S.out ++ p.buffer)) ∧
    (¬ p.AtEnd → Free (S.out ++ p.buffer))

section
variable {n : Int} {tty mayFail : Bool} {S S' : System} {i : Nat} {p p' : Proc} {prog : Prog}

/-- When the first process is at its end all the others have ended. -/
theorem reaped_of_atEnd (h : AllFine n S.procs) (hparents : Parents S.procs) {r : Proc}
    (hr : S.procs[0]? = some r) (hend : r.AtEnd) (hi : S.procs[i]? = some p) (hne : i ≠ 0) :
    p.status = .reaped := by
  refine reaped_of_settled h hparents ?_ hi hne
  have hfine := h 0 r hr
  rw [Proc.Fine] at hfine
  rw [Proc.AtEnd] at hend
  cases hstatus : r.status with
  | running prog' =>
      simp only [hstatus] at hfine hend
      subst hend
      exact hfine.elim False.elim And.right
  | zombie => simpa only [hstatus] using hfine
  | reaped => simpa only [hstatus] using hfine

/-- While another process runs the first one is not at its end. -/
theorem not_atEnd (h : AllFine n S.procs) (hparents : Parents S.procs)
    (hi : S.procs[i]? = some p) (hp : p.status = .running prog) (hne : i ≠ 0) {r : Proc}
    (hr : S.procs[0]? = some r) : ¬ r.AtEnd := by
  intro hend
  cases hp.symm.trans (reaped_of_atEnd h hparents hr hend hi hne)

theorem not_atEnd_of_waits {next : Prog} (h : next.Waits n) :
    ¬ Proc.AtEnd { p with status := .running next } := by
  intro hend
  obtain rfl : next = .exit := hend
  exact h

/-- The first process, when another one writes. -/
theorem Ends.first_of_other (h : Ends n tty S) (hfine : AllFine n S.procs)
    (hparents : Parents S.procs) (hi : S.procs[i]? = some p) (hp : p.status = .running prog)
    (hne : i ≠ 0) {r : Proc} (hr : S.procs[0]? = some r) {out : List Line}
    (hout : ∀ l ∈ out, l ∈ S.out ∨ ¬ l.IsEnd) :
    (r.AtEnd → EndsOnce n (out ++ r.buffer)) ∧ (¬ r.AtEnd → Free (out ++ r.buffer)) := by
  have hr' := not_atEnd hfine hparents hi hp hne hr
  have hfree := (h.first r hr).2 hr'
  refine ⟨fun hyes => absurd hyes hr', fun _ l hl => ?_⟩
  rcases List.mem_append.mp hl with hl | hl
  · rcases hout l hl with hl | hl
    · exact hfree l (List.mem_append_left _ hl)
    · exact hl
  · exact hfree l (List.mem_append_right _ hl)

theorem Ends.free_buffer (h : Ends n tty S) (hi : S.procs[i]? = some p)
    (hp : p.status = .running prog) (hprog : prog ≠ .exit) : Free p.buffer := by
  by_cases hzero : i = 0
  · subst hzero
    have hfree := (h.first p hi).2 fun hend => hprog ((atEnd_of_running hp).mp hend)
    exact fun l hl => hfree l (List.mem_append_right _ hl)
  · exact h.others i p hi hzero

/-- A process that runs does something: what it writes, and what it has then to write. -/
theorem Ends.set (h : Ends n tty S) (hi : S.procs[i]? = some p) {out : List Line} {err : List Str}
    (hbuffer : tty = true → p'.buffer = [])
    (hended : (∀ prog, p'.status ≠ .running prog) → p'.buffer = [])
    (hother : i ≠ 0 → Free p'.buffer ∧ ∀ r, S.procs[0]? = some r →
      (r.AtEnd → EndsOnce n (out ++ r.buffer)) ∧ (¬ r.AtEnd → Free (out ++ r.buffer)))
    (hfirst : i = 0 → (p'.AtEnd → EndsOnce n (out ++ p'.buffer)) ∧
      (¬ p'.AtEnd → Free (out ++ p'.buffer))) :
    Ends n tty ⟨S.procs.set i p', out, err⟩ := by
  have hlt := (List.getElem?_eq_some_iff.mp hi).1
  have hsame : ∀ (j : Nat) q, (S.procs.set i p')[j]? = some q →
      j = i ∧ q = p' ∨ j ≠ i ∧ S.procs[j]? = some q := by
    intro j q hq
    by_cases hj : j = i
    · subst hj
      rw [List.getElem?_set_self hlt] at hq
      exact .inl ⟨rfl, (Option.some.inj hq).symm⟩
    · rw [List.getElem?_set_ne (Ne.symm hj)] at hq
      exact .inr ⟨hj, hq⟩
  refine ⟨fun htty q hq => ?_, fun j q hq hj => ?_, fun q hq hrun => ?_, fun q hq => ?_⟩
  · rcases List.mem_or_eq_of_mem_set hq with hq | rfl
    · exact h.buffers htty q hq
    · exact hbuffer htty
  · rcases hsame j q hq with ⟨rfl, rfl⟩ | ⟨-, hq⟩
    · exact (hother hj).1
    · exact h.others j q hq hj
  · rcases List.mem_or_eq_of_mem_set hq with hq | rfl
    · exact h.ended q hq hrun
    · exact hended hrun
  · rcases hsame 0 q hq with ⟨rfl, rfl⟩ | ⟨hne, hq⟩
    · exact hfirst rfl
    · exact (hother (Ne.symm hne)).2 q hq

/-- A call that writes nothing. -/
theorem Ends.silent (h : Ends n tty S) (hi : S.procs[i]? = some p) {err : List Str}
    (hp : p.status = .running prog) (hprog : prog ≠ .exit) (hbuffer : p'.buffer = p.buffer)
    (hended : ∃ prog', p'.status = .running prog') (hend : i = 0 → ¬ p'.AtEnd) :
    Ends n tty ⟨S.procs.set i p', S.out, err⟩ := by
  refine h.set hi ?_ ?_ ?_ ?_
  · rw [hbuffer]
    exact fun htty => h.buffers htty p (List.mem_of_getElem? hi)
  · obtain ⟨prog', hprog'⟩ := hended
    exact fun hno => absurd hprog' (hno prog')
  · rw [hbuffer]
    exact fun hne => ⟨h.others i p hi hne, h.first⟩
  · rintro rfl
    rw [hbuffer]
    have hnot : ¬ p.AtEnd := fun hyes => hprog ((atEnd_of_running hp).mp hyes)
    exact ⟨fun hyes => absurd hyes (hend rfl), fun _ => (h.first p hi).2 hnot⟩

/-- A line is written, or put into the buffer. -/
theorem Ends.print (h : Ends n tty S) (hfine : AllFine n S.procs) (hparents : Parents S.procs)
    (hi : S.procs[i]? = some p) {line : Nat → Parent → Line} {next : Prog}
    (hp : p.status = .running (.printf line next)) (hp' : p'.status = .running next)
    {x : Line} (hx : x = line i (S.getppid p)) {out : List Line}
    (hbuffer : tty = true → p'.buffer = []) (hout : ∀ l ∈ out, l ∈ S.out ∨ l = x)
    (hadded : ∀ l ∈ p'.buffer, l ∈ p.buffer ∨ l = x)
    (heq : out ++ p'.buffer = S.out ++ p.buffer ++ [x]) :
    Ends n tty ⟨S.procs.set i p', out, S.err⟩ := by
  have hne : Prog.printf line next ≠ .exit := Prog.noConfusion
  have hrun : (∀ prog, p'.status ≠ .running prog) → p'.buffer = [] := fun hno => absurd hp' (hno _)
  have hnot : ¬ p.AtEnd := fun hyes => hne ((atEnd_of_running hp).mp hyes)
  rcases (fine_of_running hp).mp (hfine i p hi) with ⟨hline, hwaits⟩ | ⟨hpast, -⟩
  · have hline : ¬ x.IsEnd := hx ▸ hline i (S.getppid p)
    have hnext : ¬ p'.AtEnd := by
      rw [atEnd_of_running hp']
      rintro rfl
      exact hwaits
    refine h.set hi hbuffer hrun (fun hzero => ⟨fun l hl => ?_, fun r hr => ?_⟩) ?_
    · rcases hadded l hl with hl | rfl
      · exact h.free_buffer hi hp hne l hl
      · exact hline
    · refine h.first_of_other hfine hparents hi hp hzero hr fun l hl => ?_
      rcases hout l hl with hl | rfl
      · exact .inl hl
      · exact .inr hline
    · rintro rfl
      refine ⟨fun hyes => absurd hyes hnext, fun _ => ?_⟩
      rw [heq]
      exact ((h.first p hi).2 hnot).append fun l hl => List.mem_singleton.mp hl ▸ hline
  · cases hpast with
    | last hzero =>
        subst hzero
        refine h.set hi hbuffer hrun (fun hno => absurd rfl hno) fun _ => ⟨fun _ => ?_, fun hno => ?_⟩
        · rw [heq, hx]
          exact ⟨_, rfl, (h.first p hi).2 hnot⟩
        · exact absurd ((atEnd_of_running hp').mpr rfl) hno

/-- A new process has a copy of the buffer. -/
theorem Ends.append (h : Ends n tty S) (hlen : 0 < S.procs.length)
    (hbuffer : tty = true → p.buffer = []) (hfree : Free p.buffer)
    (hp : p.status = .running prog) : Ends n tty { S with procs := S.procs ++ [p] } := by
  have hsame : ∀ (j : Nat) q, (S.procs ++ [p])[j]? = some q →
      S.procs[j]? = some q ∨ j ≠ 0 ∧ q = p := by
    intro j q hq
    rw [List.getElem?_append] at hq
    split at hq
    · exact .inl hq
    · rw [List.getElem?_singleton] at hq
      split at hq
      · exact .inr ⟨by omega, (Option.some.inj hq).symm⟩
      · cases hq
  refine ⟨fun htty q hq => ?_, fun j q hq hj => ?_, fun q hq hrun => ?_, fun q hq => ?_⟩
  · rcases List.mem_append.mp hq with hq | hq
    · exact h.buffers htty q hq
    · rw [List.mem_singleton.mp hq]
      exact hbuffer htty
  · rcases hsame j q hq with hq | ⟨-, rfl⟩
    · exact h.others j q hq hj
    · exact hfree
  · rcases List.mem_append.mp hq with hq | hq
    · exact h.ended q hq hrun
    · rw [List.mem_singleton.mp hq] at hrun
      exact absurd hp (hrun prog)
  · rcases hsame 0 q hq with hq | ⟨hno, -⟩
    · exact h.first q hq
    · exact absurd rfl hno

theorem ends_step (h : Ends n tty S) (hfine : AllFine n S.procs) (hparents : Parents S.procs)
    (hstep : Step tty mayFail S S') : Ends n tty S' := by
  cases hstep with
  -- on a terminal the line is written, otherwise it stays in the buffer
  | @printf i p line next hi hp =>
      cases tty with
      | true =>
          have hempty : p.buffer = [] := h.buffers rfl p (List.mem_of_getElem? hi)
          refine h.print hfine hparents hi hp rfl rfl (fun _ => hempty) ?_ (fun _ => .inl) ?_
          · exact fun l hl => (List.mem_append.mp hl).imp_right List.mem_singleton.mp
          · rw [hempty, List.append_nil, List.append_nil]
      | false =>
          refine h.print hfine hparents hi hp rfl rfl Bool.noConfusion (fun _ => .inl) ?_ ?_
          · exact fun l hl => (List.mem_append.mp hl).imp_right List.mem_singleton.mp
          · exact (List.append_assoc _ _ _).symm
  | @eprintf i p text next hi hp =>
      rcases (fine_of_running hp).mp (hfine i p hi) with hwaits | ⟨hpast, -⟩
      · exact h.silent hi hp Prog.noConfusion rfl ⟨next, rfl⟩ fun _ => not_atEnd_of_waits hwaits
      · cases hpast
  | @fork i p child parent failed hi hp =>
      rcases (fine_of_running hp).mp (hfine i p hi) with ⟨-, hparent, -⟩ | ⟨hpast, -⟩
      · have hset : Ends n tty ⟨S.procs.set i { p with status := .running parent }, S.out, S.err⟩ := by
          exact h.silent hi hp Prog.noConfusion rfl ⟨parent, rfl⟩ fun _ => not_atEnd_of_waits hparent
        have hfree : Free p.buffer := h.free_buffer hi hp Prog.noConfusion
        refine hset.append ?_ (fun htty => h.buffers htty p (List.mem_of_getElem? hi)) hfree rfl
        rw [List.length_set]
        exact Nat.zero_lt_of_lt (List.getElem?_eq_some_iff.mp hi).1
      · cases hpast
  | @forkFailed i p child parent failed hi hp _ =>
      rcases (fine_of_running hp).mp (hfine i p hi) with ⟨-, -, hfailed⟩ | ⟨hpast, -⟩
      · exact h.silent hi hp Prog.noConfusion rfl ⟨failed, rfl⟩ fun _ => not_atEnd_of_waits hfailed
      · cases hpast
  -- what is reaped has ended, so its buffer has been written
  | @reap i j p q next hi hp hj hparent hq =>
      have hempty : q.buffer = [] := by
        refine h.ended q (List.mem_of_getElem? hj) fun prog hprog => ?_
        cases hq.symm.trans hprog
      refine h.set hj (fun _ => hempty) (fun _ => hempty) (fun _ => ⟨?_, h.first⟩) ?_
      · show Free q.buffer
        rw [hempty]
        exact fun l hl => absurd hl List.not_mem_nil
      · rintro rfl
        obtain ⟨r, hr, hstarter⟩ := hparents.first
        obtain rfl := Option.some.inj (hr.symm.trans hj)
        cases hparent.symm.trans hstarter
  | @waited i p next hi hp hnone =>
      rcases (fine_of_running hp).mp (hfine i p hi) with hwaits | ⟨hpast, -⟩
      · obtain rfl := Prog.waitAll.inj hwaits
        refine h.silent hi hp Prog.noConfusion rfl ⟨_, rfl⟩ fun _ hend => ?_
        cases (show Prog.ifFirst _ _ = .exit from hend)
      · cases hpast
  | @ifFirst i p yes no hi hp =>
      rcases (fine_of_running hp).mp (hfine i p hi) with hwaits | ⟨hpast, -⟩
      · exact hwaits.elim
      · cases hpast
        refine h.silent hi hp Prog.noConfusion rfl ⟨_, rfl⟩ ?_
        rintro rfl hend
        obtain ⟨r, hr, hstarter⟩ := hparents.first
        obtain rfl := Option.some.inj (hr.symm.trans hi)
        have hparent := (hfine.getppid hparents hi hp).trans hstarter
        rw [Proc.AtEnd] at hend
        simp only [hparent, if_true] at hend
        cases hend
  -- the buffer is written as the last act of the process
  | @exit i p hi hp =>
      refine h.set hi (fun _ => rfl) (fun _ => rfl) (fun hzero => ⟨?_, fun r hr => ?_⟩) ?_
      · exact fun l hl => absurd hl List.not_mem_nil
      · refine h.first_of_other hfine hparents hi hp hzero hr fun l hl => ?_
        exact (List.mem_append.mp hl).imp_right (h.others i p hi hzero l)
      · rintro rfl
        refine ⟨fun _ => ?_, fun hno => absurd trivial hno⟩
        rw [List.append_nil]
        exact (h.first p hi).1 ((atEnd_of_running hp).mpr rfl)

theorem ends_start (h : prog.Waits n) : Ends n tty (start prog) := by
  have hmem : ∀ q ∈ (start prog).procs, q = ⟨.starter, .running prog, []⟩ := fun q hq =>
    List.mem_singleton.mp hq
  have hfree : Free [] := fun l hl => absurd hl List.not_mem_nil
  refine ⟨fun _ q hq => by rw [hmem q hq], fun j q hq _ => ?_, fun q hq _ => by rw [hmem q hq],
    fun q hq => ?_⟩
  · rw [hmem q (List.mem_of_getElem? hq)]
    exact hfree
  · rw [hmem q (List.mem_of_getElem? hq)]
    refine ⟨fun hend => ?_, fun _ => hfree⟩
    obtain rfl : prog = .exit := hend
    exact h.elim

theorem ends (hwaits : prog.Waits n) (hreach : Reachable (Step tty mayFail) (start prog) S) :
    Ends n tty S := by
  have hinv : (Parents S.procs ∧ AllFine n S.procs) ∧ Ends n tty S :=
    hreach.invariant (I := fun S => (Parents S.procs ∧ AllFine n S.procs) ∧ Ends n tty S)
      ⟨⟨parents_start prog, fine_start hwaits⟩, ends_start hwaits⟩
      fun _ _ h hstep => ⟨⟨parents_step h.1.1 hstep, fine_step h.1.2 h.1.1 hstep⟩,
        ends_step h.2 h.1.2 h.1.1 hstep⟩
  exact hinv.2

/-- Once the line has been written, nothing is behind it, and all other processes have
ended. -/
theorem ends_of_mem (hwaits : prog.Waits n)
    (hreach : Reachable (Step tty mayFail) (start prog) S) {l : Line} (hl : l ∈ S.out)
    (hend : l.IsEnd) : EndsOnce n S.out ∧
      ∀ (j : Nat) q, j ≠ 0 → S.procs[j]? = some q → q.status = .reaped := by
  have hparents := parents hreach
  have hfine := fine hwaits hreach
  obtain ⟨p, hp, -⟩ := hparents.first
  have hfirst := (ends hwaits hreach).first p hp
  have hatEnd : p.AtEnd := by
    by_contra hno
    exact hfirst.2 hno l (List.mem_append_left _ hl) hend
  obtain ⟨pre, heq, hfree⟩ := hfirst.1 hatEnd
  refine ⟨?_, fun j q hne hj => ?_⟩
  · rcases List.append_eq_append_iff.mp heq with ⟨rest, rfl, -⟩ | ⟨rest, hout, hrest⟩
    · exact absurd hend (hfree l (List.mem_append_left _ hl))
    · cases rest with
      | nil =>
          rw [List.append_nil] at hout
          exact absurd hend (hfree l (hout ▸ hl))
      | cons x rest =>
          obtain ⟨rfl, hnil⟩ := List.cons_eq_cons.mp hrest
          obtain ⟨rfl, -⟩ := List.append_eq_nil_iff.mp hnil.symm
          exact ⟨pre, hout, hfree⟩
  · exact reaped_of_atEnd hfine hparents hp hatEnd hj hne

theorem forks_isSome (hn : 1 ≤ n ∧ n ≤ 5) : ∃ s, forks n = some s := by
  unfold forks
  split_ifs
  all_goals first | exact ⟨_, rfl⟩ | omega

/-- **In any order the line is the last one.** Every run of `tryFork` ends, with one line of the
first process at the end of what has been written, and that line is never written before the
other processes have ended. -/
theorem tryFork_ends (hn : 1 ≤ n ∧ n ≤ 5) :
    (∀ run : Nat → System, ∃ k, ¬ Step tty mayFail (run k) (run (k + 1))) ∧
    ∀ S, Reachable (Step tty mayFail) (start (tryFork n)) S →
      (Stuck (Step tty mayFail) S → (∀ i, ¬ S.Running i) ∧ EndsOnce n S.out) ∧
      ∀ l ∈ S.out, l.IsEnd → EndsOnce n S.out ∧
        ∀ (j : Nat) q, j ≠ 0 → S.procs[j]? = some q → q.status = .reaped := by
  obtain ⟨s, hs⟩ := forks_isSome hn
  have hwaits := waits_tryFork hs
  refine ⟨no_infinite_run, fun S hreach => ⟨fun hstuck => ?_, fun l hl => ends_of_mem hwaits hreach hl⟩⟩
  have hparents := parents hreach
  have hnone := not_running_of_stuck hstuck hparents
  refine ⟨hnone, ?_⟩
  obtain ⟨p, hp, -⟩ := hparents.first
  have hends := ends hwaits hreach
  have hended : ∀ prog, p.status ≠ .running prog := fun prog hprog => hnone 0 ⟨p, prog, hp, hprog⟩
  have hatEnd : p.AtEnd := by
    rw [Proc.AtEnd]
    cases hstatus : p.status with
    | running prog => exact absurd hstatus (hended prog)
    | zombie => trivial
    | reaped => trivial
  have honce := (hends.first p hp).1 hatEnd
  rwa [hends.ended p (List.mem_of_getElem? hp) hended, List.append_nil] at honce

theorem four_ends :
    (∀ run : Nat → System, ∃ k, ¬ Step false true (run k) (run (k + 1))) ∧
    ∀ S, Reachable (Step false true) (start (tryFork 4)) S →
      (Stuck (Step false true) S → (∀ i, ¬ S.Running i) ∧ EndsOnce 4 S.out) ∧
      ∀ l ∈ S.out, l.IsEnd → EndsOnce 4 S.out ∧
        ∀ (j : Nat) q, j ≠ 0 → S.procs[j]? = some q → q.status = .reaped :=
  tryFork_ends (by decide)

end

end UnixSys.Forks
