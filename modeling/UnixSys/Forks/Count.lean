import UnixSys.Forks.Ends

/-!
# Count — how many processes there are, and how many lines

When no `fork` fails, the number of processes of a program and the numbers of its lines do not
depend on the order in which the processes run. A line that is printed before a `fork` is
written once on a terminal; elsewhere it is in the buffer that `fork` copies, and is written by
every process.
-/

namespace UnixSys.Forks

open Forks.System

/-! ## Programs -/

section
variable (P : Line → Bool) (e : Nat) (tty : Bool)

/-- The lines with `P` that a process and its descendants write, with `b` of them in its buffer;
and `e` for each of the processes. -/
def Prog.lines : Prog → Nat → Nat
  | .printf line next, b =>
      if tty then (P (line 0 .starter)).toNat + next.lines b
      else next.lines (b + (P (line 0 .starter)).toNat)
  | .eprintf _ next, b => next.lines b
  | .fork child parent _, b => child.lines b + parent.lines b
  | .waitAll next, b => next.lines b
  | .ifFirst _ no, b => no.lines b
  | .exit, b => b + e

/-- Whether a line has `P` does not depend on the process. -/
def Prog.Even : Prog → Prop
  | .printf line next => (∀ i parent, P (line i parent) = P (line 0 .starter)) ∧ next.Even
  | .eprintf _ next => next.Even
  | .fork child parent failed => child.Even ∧ parent.Even ∧ failed.Even
  | .waitAll next => next.Even
  | .ifFirst yes no => yes.Even ∧ no.Even ∧ ∀ b, yes.lines P e tty b = no.lines P e tty b
  | .exit => True

/-- What a process has still to write, and those that it will make. -/
def Proc.due (p : Proc) : Nat :=
  match p.status with
  | .running prog => prog.lines P e tty (p.buffer.countP P)
  | .zombie | .reaped => e

/-- What has been written and what is still to be written. -/
def System.total (S : System) : Nat := S.out.countP P + (S.procs.map (·.due P e tty)).sum

def System.Even (S : System) : Prop :=
  ∀ q ∈ S.procs, ∀ prog, q.status = .running prog → prog.Even P e tty

end

/-! ## The invariant -/

section
variable {P : Line → Bool} {e : Nat} {tty : Bool} {S S' : System} {i : Nat} {p p' : Proc}
  {prog next : Prog}

theorem due_of_running (hp : p.status = .running prog) :
    p.due P e tty = prog.lines P e tty (p.buffer.countP P) := by
  rw [Proc.due, hp]

theorem total_set (hi : S.procs[i]? = some p) {out : List Line} {err : List Str}
    (h : out.countP P + p'.due P e tty = S.out.countP P + p.due P e tty) :
    System.total P e tty ⟨S.procs.set i p', out, err⟩ = S.total P e tty := by
  have hset := sum_map_set (·.due P e tty) hi p'
  simp only [System.total] at hset ⊢
  omega

theorem even_set (h : S.Even P e tty) {out : List Line} {err : List Str}
    (hp' : ∀ prog, p'.status = .running prog → prog.Even P e tty) :
    System.Even P e tty ⟨S.procs.set i p', out, err⟩ := by
  intro q hq prog hprog
  rcases List.mem_or_eq_of_mem_set hq with hq | rfl
  · exact h q hq prog hprog
  · exact hp' prog hprog

theorem even_next (h : S.Even P e tty) {out : List Line} {err : List Str}
    (hp' : p'.status = .running next) (hnext : next.Even P e tty) :
    System.Even P e tty ⟨S.procs.set i p', out, err⟩ := by
  refine even_set h fun prog hprog => ?_
  obtain rfl := Status.running.inj (hp'.symm.trans hprog)
  exact hnext

/-- No call changes the total, as long as no `fork` fails. -/
theorem total_step (h : S.Even P e tty) (hstep : Step tty false S S') :
    S'.Even P e tty ∧ S'.total P e tty = S.total P e tty := by
  cases hstep with
  | @printf i p line next hi hp =>
      obtain ⟨hline, hnext⟩ := h p (List.mem_of_getElem? hi) _ hp
      have hcount : [line i (S.getppid p)].countP P = (P (line 0 .starter)).toNat := by
        rw [List.countP_singleton, hline]
        cases P (line 0 .starter) <;> rfl
      cases tty with
      | true =>
          refine ⟨even_next h rfl hnext, total_set hi ?_⟩
          rw [due_of_running hp, due_of_running rfl, List.countP_append, hcount, Prog.lines,
            if_pos rfl, Nat.add_assoc]
      | false =>
          refine ⟨even_next h rfl hnext, total_set hi ?_⟩
          rw [due_of_running hp, due_of_running rfl, List.countP_append, hcount, Prog.lines,
            if_neg Bool.false_ne_true]
  | @eprintf i p text next hi hp =>
      have hnext : next.Even P e tty := h p (List.mem_of_getElem? hi) (.eprintf text next) hp
      refine ⟨even_next h rfl hnext, total_set hi ?_⟩
      rw [due_of_running hp, due_of_running rfl, Prog.lines]
      rfl
  -- the lines due before the `fork` are those of the parent and of the child after it
  | @fork i p child parent failed hi hp =>
      obtain ⟨hchild, hparent, -⟩ := h p (List.mem_of_getElem? hi) _ hp
      have hset := sum_map_set (·.due P e tty) hi { p with status := .running parent }
      constructor
      · intro q hq prog hprog
        rcases List.mem_append.mp hq with hq | hq
        · rcases List.mem_or_eq_of_mem_set hq with hq | rfl
          · exact h q hq prog hprog
          · obtain rfl := Status.running.inj hprog
            exact hparent
        · rw [List.mem_singleton.mp hq] at hprog
          obtain rfl := Status.running.inj hprog
          exact hchild
      · rw [due_of_running hp, due_of_running rfl, Prog.lines] at hset
        simp only [System.total, List.map_append, List.sum_append, List.map_cons, List.map_nil,
          List.sum_cons, List.sum_nil] at hset ⊢
        rw [show Proc.due P e tty ⟨.proc i, .running child, p.buffer⟩ =
          child.lines P e tty (p.buffer.countP P) from rfl]
        omega
  | forkFailed _ _ hfail => cases hfail
  | @reap i j p q next hi hp hj hparent hq =>
      refine ⟨even_set h fun _ hprog => (by cases hprog), total_set hj ?_⟩
      rw [Proc.due, Proc.due, hq]
  | @waited i p next hi hp _ =>
      have hnext : next.Even P e tty := h p (List.mem_of_getElem? hi) (.waitAll next) hp
      refine ⟨even_next h rfl hnext, total_set hi ?_⟩
      rw [due_of_running hp, due_of_running rfl, Prog.lines]
  | @ifFirst i p yes no hi hp =>
      obtain ⟨hyes, hno, hsame⟩ := h p (List.mem_of_getElem? hi) _ hp
      have heven : (if S.getppid p = .starter then yes else no).Even P e tty := by
        split
        · exact hyes
        · exact hno
      refine ⟨even_next h rfl heven, total_set hi ?_⟩
      rw [due_of_running hp, due_of_running rfl, Prog.lines]
      split
      · rw [hsame]
      · rfl
  | @exit i p hi hp =>
      refine ⟨even_set h fun _ hprog => (by cases hprog), total_set hi ?_⟩
      rw [due_of_running hp, Prog.lines, List.countP_append, Proc.due, Nat.add_assoc]

/-- **In any order the same numbers**: what has been written at the end of a run. -/
theorem lines_of_stuck (heven : prog.Even P e tty)
    (hreach : Reachable (Step tty false) (start prog) S) (hstuck : Stuck (Step tty false) S) :
    S.out.countP P + e * S.procs.length = prog.lines P e tty 0 := by
  have hinv : S.Even P e tty ∧ S.total P e tty = (start prog).total P e tty := by
    refine hreach.invariant (I := fun S =>
      S.Even P e tty ∧ S.total P e tty = (start prog).total P e tty) ⟨?_, rfl⟩ ?_
    · intro q hq prog' hprog
      rw [List.mem_singleton.mp hq] at hprog
      obtain rfl := Status.running.inj hprog
      exact heven
    · intro S₁ S₂ h hstep
      obtain ⟨heven₂, htotal⟩ := total_step h.1 hstep
      exact ⟨heven₂, htotal.trans h.2⟩
  have hnone := not_running_of_stuck hstuck (parents hreach)
  have hended : S.procs.map (·.due P e tty) = List.replicate S.procs.length e := by
    refine List.eq_replicate_iff.mpr ⟨List.length_map _, fun x hx => ?_⟩
    obtain ⟨q, hq, rfl⟩ := List.mem_map.mp hx
    obtain ⟨j, hj⟩ := List.mem_iff_getElem?.mp hq
    rw [Proc.due]
    cases hstatus : q.status with
    | running prog' => exact absurd ⟨q, prog', hj, hstatus⟩ (hnone j)
    | zombie => rfl
    | reaped => rfl
  have htotal := hinv.2
  simp only [System.total, hended, List.sum_replicate_nat] at htotal
  rw [Nat.mul_comm, htotal]
  simp [start, Proc.due]

end

/-! ## The numbers of a statement -/

section
variable {P : Line → Bool} {e : Nat} {tty : Bool} {s t body : Stmt} {k l : Nat}

/-- A statement makes `k` processes out of one. -/
def Stmt.Times (P : Line → Bool) (e : Nat) (tty : Bool) (k : Nat) (s : Stmt) : Prop :=
  ∀ next b, (s next).lines P e tty b = k * next.lines P e tty b

theorem times_fork : Stmt.Times P e tty 2 fork := fun _ _ => (Nat.two_mul _).symm

theorem Stmt.Times.ifForkAnd (h : Stmt.Times P e tty k body) :
    Stmt.Times P e tty (2 + k) (ifForkAnd body) := by
  intro next b
  show next.lines P e tty b + (next.lines P e tty b + (body next).lines P e tty b) = _
  rw [h next b, Nat.add_mul]
  omega

theorem Stmt.Times.ifForkOr (h : Stmt.Times P e tty k body) :
    Stmt.Times P e tty (1 + 2 * k) (ifForkOr body) := by
  intro next b
  show next.lines P e tty b + (body next).lines P e tty b + (body next).lines P e tty b = _
  rw [h next b, Nat.add_mul, Nat.mul_assoc]
  omega

theorem Stmt.Times.comp (hs : Stmt.Times P e tty k s) (ht : Stmt.Times P e tty l t) :
    Stmt.Times P e tty (k * l) (s ∘ t) := by
  intro next b
  rw [Function.comp_apply, hs, ht, Nat.mul_assoc]

theorem Stmt.Times.forLoop (h : Stmt.Times P e tty k body) (n : Nat) :
    Stmt.Times P e tty (k ^ n) (forLoop n body) := by
  induction n with
  | zero => exact fun next b => (Nat.one_mul _).symm
  | succ n ih =>
      rw [Nat.pow_succ, Nat.mul_comm]
      exact h.comp ih

end

/-! ## The programs -/

/-- How many processes the cases of `tryFork` make. -/
def processes (caseNum : Int) : Nat :=
  if caseNum = 1 then 2
  else if caseNum = 2 then 4
  else if caseNum = 3 then 8
  else if caseNum = 4 then 64
  else 16

def Line.isPid : Line → Bool
  | .pid _ _ => true
  | .caseNumber _ | .endOf _ _ | .initial _ => false

def Line.isCaseNumber : Line → Bool
  | .caseNumber _ => true
  | .pid _ _ | .endOf _ _ | .initial _ => false

def Line.isInitial : Line → Bool
  | .initial _ => true
  | .caseNumber _ | .pid _ _ | .endOf _ _ => false

section
variable {P : Line → Bool} {e : Nat} {tty : Bool} {n : Int} {s : Stmt} {S : System}

theorem times_of_forks (h : forks n = some s) : Stmt.Times P e tty (processes n) s := by
  have hfork : Stmt.Times P e tty 2 fork := times_fork
  have hand := hfork.ifForkAnd
  unfold forks at h
  unfold processes
  split_ifs at h ⊢ <;> cases h
  · exact hfork
  · exact hfork.comp hfork
  · exact hfork.comp (hfork.comp hfork)
  · exact hand.comp (hand.comp hand)
  · exact hfork.forLoop 4

theorem even_fork (child parent failed : Prog) (hchild : child.Even P e tty)
    (hparent : parent.Even P e tty) (hfailed : failed.Even P e tty) :
    (Prog.fork child parent failed).Even P e tty := ⟨hchild, hparent, hfailed⟩

/-- What is written when a first line and a statement come before the line of each process: the
first line is written by each of them when it has been in the buffer. -/
theorem lines_first {line : Nat → Parent → Line} {last : Prog} {k : Nat}
    (hs : Stmt.Times P e tty k s) (hlast : ∀ b, last.lines P e tty b = b + e) :
    (Prog.printf line (s (printPid last))).lines P e tty 0 =
      if tty then (P (line 0 .starter)).toNat + k * ((P (.pid 0 .starter)).toNat + e)
      else k * ((P (line 0 .starter)).toNat + (P (.pid 0 .starter)).toNat + e) := by
  cases tty with
  | true =>
      rw [Prog.lines, if_pos rfl, if_pos rfl, hs, printPid, Prog.lines, if_pos rfl, hlast,
        Nat.zero_add]
  | false =>
      rw [Prog.lines, if_neg Bool.false_ne_true, if_neg Bool.false_ne_true, hs, printPid,
        Prog.lines, if_neg Bool.false_ne_true, hlast, Nat.zero_add]

/-- A program that prints a line and makes `k` processes, each of which prints its line. -/
theorem first_lines {line : Nat → Parent → Line} {last : Prog} {k : Nat} {isFirst : Line → Bool}
    (htimes : ∀ P e, Stmt.Times P e tty k s)
    (hkeeps : ∀ Q : Prog → Prop, (∀ child parent failed, Q child → Q parent → Q failed →
      Q (.fork child parent failed)) → Stmt.Keeps Q s)
    (hlast : ∀ (P : Line → Bool) e, (∀ n i, P (.endOf n i) = false) →
      last.Even P e tty ∧ ∀ b, last.lines P e tty b = b + e)
    (hline : ∀ i parent, isFirst (line i parent) = true ∧ (line i parent).isPid = false)
    (hnot : ∀ i parent, isFirst (.pid i parent) = false)
    (hend : ∀ n i, isFirst (.endOf n i) = false)
    (hreach : Reachable (Step tty false) (start (.printf line (s (printPid last)))) S)
    (hstuck : Stuck (Step tty false) S) :
    S.procs.length = k ∧ S.out.countP Line.isPid = k ∧
      S.out.countP isFirst = if tty then 1 else k := by
  have hcount : ∀ (P : Line → Bool) e, (∀ i parent, P (line i parent) = P (line 0 .starter)) →
      (∀ i parent, P (.pid i parent) = P (.pid 0 .starter)) → (∀ n i, P (.endOf n i) = false) →
      S.out.countP P + e * S.procs.length =
        if tty then (P (line 0 .starter)).toNat + k * ((P (.pid 0 .starter)).toNat + e)
        else k * ((P (line 0 .starter)).toNat + (P (.pid 0 .starter)).toNat + e) := by
    intro P e hfirst hpid hend
    obtain ⟨heven, hlines⟩ := hlast P e hend
    have hrest : (s (printPid last)).Even P e tty := hkeeps _ even_fork _ ⟨hpid, heven⟩
    have hall : (Prog.printf line (s (printPid last))).Even P e tty := ⟨hfirst, hrest⟩
    rw [lines_of_stuck hall hreach hstuck, lines_first (htimes P e) hlines]
  refine ⟨?_, ?_, ?_⟩
  · have hall := hcount (fun _ => false) 1 (fun _ _ => rfl) (fun _ _ => rfl) fun _ _ => rfl
    cases tty <;> simpa using hall
  · have hpids := hcount Line.isPid 0 (fun i parent => by rw [(hline i parent).2, (hline _ _).2])
      (fun _ _ => rfl) fun _ _ => rfl
    rw [(hline _ _).2] at hpids
    cases tty <;> simpa [Line.isPid] using hpids
  · have hfirsts := hcount isFirst 0 (fun i parent => by rw [(hline i parent).1, (hline _ _).1])
      (fun i parent => by rw [hnot, hnot]) hend
    rw [(hline _ _).1, hnot] at hfirsts
    cases tty <;> simpa using hfirsts

/-- The last line is not counted, and so it is the same whether it is written. -/
theorem lines_terminate (hend : ∀ n i, P (.endOf n i) = false) :
    (terminate n).Even P e tty ∧ ∀ b, (terminate n).lines P e tty b = b + e := by
  refine ⟨⟨⟨fun i _ => ?_, trivial⟩, trivial, fun b => ?_⟩, fun b => rfl⟩
  · rw [hend, hend]
  · cases tty <;> simp [Prog.lines, hend]

/-- **What `tryFork` leaves.** In any order there are as many processes, each with its line; the
case number is written once on a terminal, and elsewhere once for each process. -/
theorem tryFork_lines (hn : 1 ≤ n ∧ n ≤ 5)
    (hreach : Reachable (Step tty false) (start (tryFork n)) S)
    (hstuck : Stuck (Step tty false) S) :
    S.procs.length = processes n ∧ S.out.countP Line.isPid = processes n ∧
      S.out.countP Line.isCaseNumber = if tty then 1 else processes n := by
  obtain ⟨s, hs⟩ := forks_isSome hn
  rw [tryFork, hs] at hreach
  exact first_lines (fun _ _ => times_of_forks hs) (fun _ hQ => keeps_of_forks hQ hs)
    (fun _ _ hend => lines_terminate hend) (fun _ _ => ⟨rfl, rfl⟩) (fun _ _ => rfl)
    (fun _ _ => rfl) hreach hstuck

theorem four_lines : ∃ S, Reachable (Step false false) (start (tryFork 4)) S ∧
    S.procs.length = 64 ∧ S.out.countP Line.isPid = 64 ∧
    S.out.countP Line.isCaseNumber = 64 := by
  obtain ⟨S, hreach, hstuck⟩ := exists_end false false (start (tryFork 4))
  exact ⟨S, hreach, tryFork_lines (by decide) hreach hstuck⟩

/-- A program that makes `k` processes, each of which prints its line and exits. -/
theorem exits_lines {k : Nat} (htimes : ∀ P e, Stmt.Times P e tty k s)
    (hkeeps : ∀ Q : Prog → Prop, (∀ child parent failed, Q child → Q parent → Q failed →
      Q (.fork child parent failed)) → Stmt.Keeps Q s)
    (hreach : Reachable (Step tty false) (start (s (printPid .exit))) S)
    (hstuck : Stuck (Step tty false) S) :
    S.procs.length = k ∧ S.out.countP Line.isPid = k := by
  have hlines : ∀ (P : Line → Bool) e, (∀ i parent, P (.pid i parent) = P (.pid 0 .starter)) →
      S.out.countP P + e * S.procs.length = k * ((P (.pid 0 .starter)).toNat + e) := by
    intro P e hpid
    have heven : (s (printPid .exit)).Even P e tty := hkeeps _ even_fork _ ⟨hpid, trivial⟩
    rw [lines_of_stuck heven hreach hstuck, htimes]
    cases tty <;> simp [printPid, Prog.lines]
  constructor
  · simpa using hlines (fun _ => false) 1 fun _ _ => rfl
  · simpa [Line.isPid] using hlines Line.isPid 0 fun _ _ => rfl

/-- `1fork.c` makes 25 processes. -/
theorem oneFork_lines (hreach : Reachable (Step tty false) (start oneFork) S)
    (hstuck : Stuck (Step tty false) S) :
    S.procs.length = 25 ∧ S.out.countP Line.isPid = 25 := by
  refine exits_lines (fun P e => ?_) (fun Q hQ => ?_) hreach hstuck
  · exact times_fork.ifForkOr.comp times_fork.ifForkOr
  · have hor := (keeps_fork hQ).ifForkOr hQ
    exact hor.comp hor

theorem oneFork_ends : ∃ S, Reachable (Step false false) (start oneFork) S ∧
    S.procs.length = 25 ∧ S.out.countP Line.isPid = 25 := by
  obtain ⟨S, hreach, hstuck⟩ := exists_end false false (start oneFork)
  exact ⟨S, hreach, oneFork_lines hreach hstuck⟩

/-- `3fork.c` makes 64 processes. -/
theorem threeFork_lines (hreach : Reachable (Step tty false) (start threeFork) S)
    (hstuck : Stuck (Step tty false) S) :
    S.procs.length = 64 ∧ S.out.countP Line.isPid = 64 := by
  refine exits_lines (fun P e => ?_) (fun Q hQ => ?_) hreach hstuck
  · exact times_fork.ifForkAnd.comp (times_fork.ifForkAnd.comp times_fork.ifForkAnd)
  · have hand := (keeps_fork hQ).ifForkAnd hQ
    exact hand.comp (hand.comp hand)

theorem threeFork_ends : ∃ S, Reachable (Step true false) (start threeFork) S ∧
    S.procs.length = 64 ∧ S.out.countP Line.isPid = 64 := by
  obtain ⟨S, hreach, hstuck⟩ := exists_end true false (start threeFork)
  exact ⟨S, hreach, threeFork_lines hreach hstuck⟩

/-- **What `forkloop.c` leaves.** In any order there are four processes, each with its line; the
line before the loop is written once on a terminal, and elsewhere four times. -/
theorem forkLoop_lines (hreach : Reachable (Step tty false) (start forkLoop) S)
    (hstuck : Stuck (Step tty false) S) :
    S.procs.length = 4 ∧ S.out.countP Line.isPid = 4 ∧
      S.out.countP Line.isInitial = if tty then 1 else 4 := by
  have hexit : ∀ (P : Line → Bool) e, Prog.exit.Even P e tty ∧
      ∀ b, Prog.exit.lines P e tty b = b + e := fun P e => ⟨trivial, fun _ => rfl⟩
  exact first_lines (fun _ _ => times_fork.forLoop 2) (fun _ hQ => (keeps_fork hQ).forLoop 2)
    (fun P e _ => hexit P e) (fun _ _ => ⟨rfl, rfl⟩) (fun _ _ => rfl) (fun _ _ => rfl) hreach
    hstuck

theorem forkLoop_ends : ∃ S, Reachable (Step false false) (start forkLoop) S ∧
    S.procs.length = 4 ∧ S.out.countP Line.isPid = 4 ∧ S.out.countP Line.isInitial = 4 := by
  obtain ⟨S, hreach, hstuck⟩ := exists_end false false (start forkLoop)
  exact ⟨S, hreach, forkLoop_lines hreach hstuck⟩

end

end UnixSys.Forks
