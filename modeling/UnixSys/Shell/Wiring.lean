import UnixSys.Shell.Refine
import UnixSys.Posix.Solo

/-!
# Wiring — the descriptors of a pipeline

The shell enters each round of the pipe loop with its own table and the two ends
of the previous pipe. `stageTable` is the table that each stage must have when
it is executed, `pipeLoop_start_solo` that it has it, for every table in which
descriptor 0 is open. The read end of a new pipe is then at least 1 and the
write end at least 2, so that no `dup2` of a child overwrites an end that it
still needs.
-/

namespace UnixSys

namespace FdTable

variable (T : FdTable)

/-- `T` with both ends of the pipe `id` at the descriptors `fds`. -/
def hold (fds : Int × Int) (id : Nat) : FdTable :=
  (T.put fds.1 (.pipeR id)).put fds.2 (.pipeW id)

/-- The descriptors that a pipe can have in `T` when descriptor 0 is open. -/
structure Room (fds : Int × Int) : Prop where
  read : T.get fds.1 = none
  write : T.get fds.2 = none
  pos : 1 ≤ fds.1
  lt : fds.1 < fds.2

/-- `T` with descriptor 0 replaced by `src` and descriptor 1 by `snk`. -/
def wire (src snk : Option Ofd) : FdTable :=
  let T := match src with
    | none => T
    | some o => T.put 0 o
  match snk with
  | none => T
  | some o => T.put 1 o

variable {T}

theorem room_pipeFds (h0 : T.get 0 ≠ none) (id : Nat) : T.Room (T.pipeFds id) :=
  ⟨(T.pipeFds_free id).1, (T.pipeFds_free id).2, T.lowest_pos h0, T.pipeFds_lt id⟩

theorem get_hold {fds : Int × Int} (h : T.Room fds) (id : Nat) (x : Int) :
    (T.hold fds id).get x =
      if x = fds.2 then some (.pipeW id) else if x = fds.1 then some (.pipeR id) else T.get x := by
  have h1 := h.pos
  have h2 := h.lt
  simp only [hold, get_put]
  split_ifs <;> first | rfl | omega

theorem get_hold_zero {fds : Int × Int} (h : T.Room fds) (id : Nat) :
    (T.hold fds id).get 0 = T.get 0 := by
  have h1 := h.pos
  have h2 := h.lt
  rw [get_hold h, if_neg (by omega), if_neg (by omega)]

@[simp] theorem get_wire (src snk : Option Ofd) (x : Int) :
    (T.wire src snk).get x =
      if x = 1 ∧ snk ≠ none then snk else if x = 0 ∧ src ≠ none then src else T.get x := by
  cases src with
  | none => cases snk <;> simp [wire]
  | some o => cases snk <;> simp [wire]

/-- Closing both ends of a pipe. -/
theorem close_hold {fds : Int × Int} (h : T.Room fds) (id : Nat) :
    ((T.hold fds id).close fds.1).close fds.2 = T := by
  ext1
  funext x
  simp only [get_close, get_hold h]
  split_ifs with h1 h2
  · rw [h1, h.write]
  · rw [h2, h.read]
  · rfl

/-- Closing both ends of a pipe when another one has been made since. -/
theorem close_hold_hold {prev pfd : Int × Int} (hp : T.Room prev) (a : Nat)
    (h : (T.hold prev a).Room pfd) (b : Nat) :
    ((((T.hold prev a).hold pfd b).close prev.1).close prev.2) = T.hold pfd b ∧ T.Room pfd := by
  have hr := h.read
  have hw := h.write
  rw [get_hold hp] at hr hw
  have hroom : T.Room pfd := by
    refine ⟨?_, ?_, h.pos, h.lt⟩
    · split_ifs at hr
      exact hr
    · split_ifs at hw
      exact hw
  refine ⟨?_, hroom⟩
  ext1
  funext x
  simp only [get_close, get_hold h, get_hold hp, get_hold hroom]
  split_ifs at hr hw ⊢ with h1 h2 h3 h4 <;> first | rfl | simp_all [hp.write, hp.read]

/-! ## The child's side -/

/-- All but the first command read from the previous pipe. -/
theorem wire_stdin {X : FdTable} {prev : Int × Int} {o : Ofd} (hpos : 1 ≤ prev.1)
    (hlt : prev.1 < prev.2) (ho : X.get prev.1 = some o) :
    ((X.close prev.2).dup2 prev.1 0).close prev.1 =
      ((X.close prev.1).close prev.2).wire (some o) none := by
  have ho' : (X.close prev.2).get prev.1 = some o := by
    rw [get_close, if_neg (by omega), ho]
  rw [dup2_of_get _ ho']
  ext1
  funext x
  simp only [get_close, get_put, get_wire]
  split_ifs <;> first | rfl | omega | simp_all

/-- All but the last command write to the current pipe. -/
theorem wire_stdout {X : FdTable} {pfd : Int × Int} {o : Ofd} (hpos : 1 ≤ pfd.1)
    (hlt : pfd.1 < pfd.2) (ho : X.get pfd.2 = some o) :
    ((X.close pfd.1).dup2 pfd.2 1).close pfd.2 =
      ((X.close pfd.1).close pfd.2).wire none (some o) := by
  have ho' : (X.close pfd.1).get pfd.2 = some o := by
    rw [get_close, if_neg (by omega), ho]
  rw [dup2_of_get _ ho']
  ext1
  funext x
  simp only [get_close, get_put, get_wire]
  split_ifs <;> first | rfl | omega | simp_all

theorem close_wire {X : FdTable} {fd : Int} (h : 1 ≤ fd) (src : Option Ofd) :
    (X.wire src none).close fd = (X.close fd).wire src none := by
  ext1
  funext x
  simp only [get_close, get_wire]
  split_ifs <;> first | rfl | omega

end FdTable

/-! ## Runs of descriptor operations -/

inductive FdOp where
  | close (fd : Int)
  | dup2 (old new : Int)

/-- The table after the operations. -/
def FdTable.ops : FdTable → List FdOp → FdTable
  | T, [] => T
  | T, .close fd :: l => (T.close fd).ops l
  | T, .dup2 old new :: l => (T.dup2 old new).ops l

/-- A program that makes the operations first. -/
def Prog.ops {α : Type} : List FdOp → Prog α → Prog α
  | [], p => p
  | .close fd :: l, p => .call (.close fd) fun _ => Prog.ops l p
  | .dup2 old new :: l, p => .call (.dup2 old new) fun _ => Prog.ops l p

theorem FdTable.ops_append (T : FdTable) (l l' : List FdOp) :
    T.ops (l ++ l') = (T.ops l).ops l' := by
  induction l generalizing T with
  | nil => rfl
  | cons op l ih =>
      cases op with
      | close fd => exact ih _
      | dup2 old new => exact ih _

theorem Prog.ops_append {α : Type} (l l' : List FdOp) (p : Prog α) :
    Prog.ops (l ++ l') p = Prog.ops l (Prog.ops l' p) := by
  induction l with
  | nil => rfl
  | cons op l ih =>
      cases op with
      | close fd => exact congrArg (Prog.call _) (funext fun _ => ih)
      | dup2 old new => exact congrArg (Prog.call _) (funext fun _ => ih)

section
variable {W α : Type} {env : Env W} {U : Prop}

theorem Prog.Child.ops {R : List Str → FdTable → Prop} {l : List FdOp} {p : Prog α} {T : FdTable}
    (h : p.Child env U R (T.ops l)) : (Prog.ops l p).Child env U R T := by
  induction l generalizing T with
  | nil => exact h
  | cons op l ih =>
      cases op with
      | close fd => exact .close (ih h)
      | dup2 old new => exact .dup2 (ih h)

theorem Prog.Solo.ops {R : Nat → List Str → FdTable → Prop} {Q : α → View → Prop}
    {l : List FdOp} {p : Prog α} {v : View}
    (h : p.Solo env U R Q { v with fds := v.fds.ops l }) : (Prog.ops l p).Solo env U R Q v := by
  induction l generalizing v with
  | nil => exact h
  | cons op l ih =>
      cases op with
      | close fd => exact .close (ih h)
      | dup2 old new => exact .dup2 (ih h)

end

namespace Shell

open Posix

variable {W α : Type} {env : Env W} {U : Prop}

/-! ## Stages -/

/-- Descriptor 0 of stage `i`, if it is not the shell's; the first pipe of the
pipeline is `first`. -/
def stageSrc (first i : Nat) : Option Ofd :=
  if i = 0 then none else some (.pipeR (first + (i - 1)))

/-- Descriptor 1 of stage `i`, if it is not the shell's. -/
def stageSnk (first i : Nat) (last : Bool) : Option Ofd :=
  if last then none else some (.pipeW (first + i))

/-- The table of stage `i` of `n` when it is executed. -/
def stageTable (T : FdTable) (first n i : Nat) : FdTable :=
  T.wire (stageSrc first i) (stageSnk first i (i + 1 = n))

/-- The table of the shell at the start of round `i`: its own with the ends of
the previous pipe. -/
def HeadTable (T : FdTable) (first i : Nat) (prevPfd : Int × Int) (X : FdTable) : Prop :=
  if i = 0 then X = T else T.Room prevPfd ∧ X = T.hold prevPfd (first + (i - 1))

/-- The table of the shell when it forks in round `i`. -/
def ForkTable (T : FdTable) (first i : Nat) (last : Bool) (prevPfd pfd : Int × Int)
    (Y : FdTable) : Prop :=
  ∃ X, HeadTable T first i prevPfd X ∧
    if last then Y = X else X.Room pfd ∧ Y = X.hold pfd (first + i)

/-- The operations of the child of round `i`. -/
def childOps (i : Nat) (last : Bool) (prevPfd pfd : Int × Int) : List FdOp :=
  (if i = 0 then [] else [.close prevPfd.2, .dup2 prevPfd.1 0, .close prevPfd.1]) ++
    if last then [] else [.close pfd.1, .dup2 pfd.2 1, .close pfd.2]

/-- The operations of the shell in round `i`. -/
def parentOps (i : Nat) (prevPfd : Int × Int) : List FdOp :=
  if i = 0 then [] else [.close prevPfd.1, .close prevPfd.2]

theorem redirect_eq_ops (i : Nat) (last : Bool) (prevPfd pfd : Int × Int) (stage : Prog α) :
    (do redirectStdin i prevPfd
        redirectStdout last pfd
        stage) = Prog.ops (childOps i last prevPfd pfd) stage := by
  have hout : (do redirectStdout last pfd
                  stage) =
      Prog.ops (if last then [] else [.close pfd.1, .dup2 pfd.2 1, .close pfd.2]) stage := by
    cases last <;> rfl
  rw [childOps, Prog.ops_append, hout]
  cases i <;> rfl

theorem closePrev_eq_ops (i : Nat) (prevPfd : Int × Int) (f : Unit → Prog α) :
    (closePrev i prevPfd >>= f) = Prog.ops (parentOps i prevPfd) (f ()) := by
  cases i <;> rfl

section
variable {T X Y : FdTable} {first i : Nat} {last : Bool} {prevPfd pfd : Int × Int}

theorem HeadTable.get_zero (h : HeadTable T first i prevPfd X) : X.get 0 = T.get 0 := by
  by_cases hi : i = 0
  · rw [HeadTable, if_pos hi] at h
    rw [h]
  · rw [HeadTable, if_neg hi] at h
    rw [h.2, FdTable.get_hold_zero h.1]

/-- The table after `redirectStdin`: what is left of the previous pipe is
descriptor 0. -/
theorem ForkTable.stdin (h : ForkTable T first i last prevPfd pfd Y) (hi : i ≠ 0) :
    ∃ Z, ((Y.close prevPfd.2).dup2 prevPfd.1 0).close prevPfd.1 = Z.wire (stageSrc first i) none ∧
      if last then Z = T else T.Room pfd ∧ Z = T.hold pfd (first + i) := by
  obtain ⟨X, hX, hY⟩ := h
  rw [HeadTable, if_neg hi] at hX
  obtain ⟨hprev, rfl⟩ := hX
  rw [stageSrc, if_neg hi]
  have hpos := hprev.pos
  have hlt := hprev.lt
  have hget : (T.hold prevPfd (first + (i - 1))).get prevPfd.1 =
      some (.pipeR (first + (i - 1))) := by
    rw [FdTable.get_hold hprev, if_neg (by omega), if_pos rfl]
  cases last with
  | true =>
      rw [if_pos rfl] at hY
      subst hY
      refine ⟨T, ?_, by simp⟩
      rw [FdTable.wire_stdin hpos hlt hget, FdTable.close_hold hprev]
  | false =>
      obtain ⟨hpfd, rfl⟩ : _ ∧ _ := by simpa using hY
      have hne : prevPfd.1 ≠ pfd.2 ∧ prevPfd.1 ≠ pfd.1 := by
        refine ⟨fun he => ?_, fun he => ?_⟩
        · have := hpfd.write
          rw [← he, hget] at this
          cases this
        · have := hpfd.read
          rw [← he, hget] at this
          cases this
      have hget' : ((T.hold prevPfd (first + (i - 1))).hold pfd (first + i)).get prevPfd.1 =
          some (.pipeR (first + (i - 1))) := by
        rw [FdTable.get_hold hpfd, if_neg hne.1, if_neg hne.2, hget]
      obtain ⟨hclose, hroom⟩ := FdTable.close_hold_hold hprev _ hpfd (first + i)
      refine ⟨T.hold pfd (first + i), ?_, by simpa using hroom⟩
      rw [FdTable.wire_stdin hpos hlt hget', hclose]

/-- The table after both redirections is the one of the stage. -/
theorem ForkTable.child (h : ForkTable T first i last prevPfd pfd Y) :
    Y.ops (childOps i last prevPfd pfd) =
      T.wire (stageSrc first i) (stageSnk first i last) := by
  -- it is enough to look at the table after the first redirection
  have hstdout : ∀ Z, (if last then Z = T else T.Room pfd ∧ Z = T.hold pfd (first + i)) →
      (Z.wire (stageSrc first i) none).ops
          (if last then [] else [.close pfd.1, .dup2 pfd.2 1, .close pfd.2]) =
        T.wire (stageSrc first i) (stageSnk first i last) := by
    intro Z hZ
    cases last with
    | true =>
        rw [if_pos rfl] at hZ
        subst hZ
        rfl
    | false =>
        obtain ⟨hpfd, rfl⟩ : _ ∧ _ := by simpa using hZ
        have hpos := hpfd.pos
        have hlt := hpfd.lt
        have hget : ((T.hold pfd (first + i)).wire (stageSrc first i) none).get pfd.2 =
            some (.pipeW (first + i)) := by
          rw [FdTable.get_wire, if_neg (by simp), if_neg (by omega), FdTable.get_hold hpfd,
            if_pos rfl]
        simp only [Bool.false_eq_true, if_false, FdTable.ops]
        rw [FdTable.wire_stdout hpos hlt hget, FdTable.close_wire hpos,
          FdTable.close_wire (by omega), FdTable.close_hold hpfd]
        rfl
  rw [childOps, FdTable.ops_append]
  by_cases hi : i = 0
  · subst hi
    obtain ⟨X, hX, hY⟩ := h
    rw [HeadTable, if_pos rfl] at hX
    subst hX
    exact hstdout Y hY
  · obtain ⟨Z, hclose, hZ⟩ := h.stdin hi
    rw [if_neg hi, FdTable.ops, FdTable.ops, FdTable.ops, FdTable.ops, hclose]
    exact hstdout Z hZ

/-- The shell's table after `closePrev`. -/
theorem ForkTable.parent (h : ForkTable T first i last prevPfd pfd Y) :
    if last then Y.ops (parentOps i prevPfd) = T
    else HeadTable T first (i + 1) pfd (Y.ops (parentOps i prevPfd)) := by
  obtain ⟨X, hX, hY⟩ := h
  by_cases hi : i = 0
  · subst hi
    rw [HeadTable, if_pos rfl] at hX
    subst hX
    simpa [HeadTable, parentOps, FdTable.ops] using hY
  rw [HeadTable, if_neg hi] at hX
  obtain ⟨hprev, rfl⟩ := hX
  rw [parentOps, if_neg hi, FdTable.ops, FdTable.ops, FdTable.ops]
  cases last with
  | true =>
      rw [if_pos rfl] at hY
      subst hY
      simpa using FdTable.close_hold hprev _
  | false =>
      obtain ⟨hpfd, rfl⟩ : _ ∧ _ := by simpa using hY
      obtain ⟨hclose, hroom⟩ := FdTable.close_hold_hold hprev (first + (i - 1)) hpfd (first + i)
      simpa [HeadTable] using ⟨hroom, hclose⟩

end

/-! ## The pipe loop -/

/-- Round `i` after its pipe has been made. -/
def forkRound {χ : Type} (stage : χ → Prog α) (done : Prog α) (command : χ) (rest : List χ)
    (i : Nat) (pfd prevPfd : Int × Int) : Prog α :=
  .fork fun
    | .failed => do
        perror "fork".toList
        exit 1
    | .child => Prog.ops (childOps i rest.isEmpty prevPfd pfd) (stage command)
    | .parent pid => Prog.ops (parentOps i prevPfd) (.waitpid pid
        (pipeLoop stage done rest (i + 1) pfd (if rest.isEmpty then prevPfd else pfd)))

theorem pipeLoop_cons {χ : Type} (stage : χ → Prog α) (done : Prog α) (command : χ)
    (rest : List χ) (i : Nat) (pfd prevPfd : Int × Int) :
    pipeLoop stage done (command :: rest) i pfd prevPfd =
      newPipe rest.isEmpty pfd >>= fun pfd =>
        forkRound stage done command rest i pfd prevPfd := by
  rw [pipeLoop]
  refine congrArg (newPipe rest.isEmpty pfd >>= ·) (funext fun pfd => ?_)
  refine congrArg Prog.fork (funext fun r => ?_)
  cases r with
  | failed => rfl
  | child => exact redirect_eq_ops i rest.isEmpty prevPfd pfd (stage command)
  | parent pid => exact closePrev_eq_ops i prevPfd _

/-- A loop like the pipe loop, whose children redirect their descriptors by the
operations `child`. -/
def wiredLoop {χ : Type} (child : Nat → Bool → Int × Int → Int × Int → List FdOp)
    (stage : χ → Prog α) (done : Prog α) : List χ → Nat → Int × Int → Int × Int → Prog α
  | [], _, _, _ => done
  | command :: rest, i, pfd, prevPfd =>
      newPipe rest.isEmpty pfd >>= fun pfd => .fork fun
        | .failed => do
            perror "fork".toList
            exit 1
        | .child => Prog.ops (child i rest.isEmpty prevPfd pfd) (stage command)
        | .parent pid => Prog.ops (parentOps i prevPfd) (.waitpid pid
            (wiredLoop child stage done rest (i + 1) pfd (if rest.isEmpty then prevPfd else pfd)))

theorem pipeLoop_eq_wiredLoop {χ : Type} (stage : χ → Prog α) (done : Prog α) (rest : List χ)
    (i : Nat) (pfd prevPfd : Int × Int) :
    pipeLoop stage done rest i pfd prevPfd =
      wiredLoop childOps stage done rest i pfd prevPfd := by
  induction rest generalizing i pfd prevPfd with
  | nil => rfl
  | cons command rest ih =>
      rw [pipeLoop_cons, wiredLoop]
      refine congrArg (newPipe rest.isEmpty pfd >>= ·) (funext fun pfd => ?_)
      refine congrArg Prog.fork (funext fun r => ?_)
      cases r with
      | failed => rfl
      | child => rfl
      | parent pid =>
          show Prog.ops _ (.waitpid pid (pipeLoop stage done rest _ _ _)) = _
          rw [ih]

variable {R : Nat → List Str → FdTable → Prop} {Q : α → View → Prop} {T : FdTable}

/-- The loop from round `i` on, in a table as round `i` finds it. When the
operations of the children give each stage its table, each stage has it when it
is executed, and the shell has `T` when the loop ends. The process of round `i` is
`base + i`, the pipe it makes `first + i`. -/
theorem wiredLoop_solo {χ : Type} {child : Nat → Bool → Int × Int → Int × Int → List FdOp}
    {stage : χ → Prog α} {done : Prog α} {base first : Nat} (h0 : T.get 0 ≠ none)
    (rest : List χ) (hne : rest ≠ []) (i : Nat) (pfd prevPfd : Int × Int)
    (v : View) (hchild : v.child = none) (hprocs : v.procs = base + i)
    (hpipes : v.pipes = first + i) (hhead : HeadTable T first i prevPfd v.fds)
    (hops : ∀ j prevPfd pfd Y, j < i + rest.length →
      ForkTable T first j (j + 1 = i + rest.length) prevPfd pfd Y →
      Y.ops (child j (j + 1 = i + rest.length) prevPfd pfd) =
        stageTable T first (i + rest.length) j)
    (hstage : ∀ j c, rest[j]? = some c → (stage c).Child env U (R (base + (i + j)))
      (stageTable T first (i + rest.length) (i + j)))
    (hdone : done.Solo env U R Q
      ⟨none, base + (i + rest.length), first + (i + rest.length - 1), T⟩) :
    (wiredLoop child stage done rest i pfd prevPfd).Solo env U R Q v := by
  induction rest generalizing i pfd prevPfd v with
  | nil => exact absurd rfl hne
  | cons c rest ih =>
      obtain ⟨child', procs, pipes, fds⟩ := v
      simp only at hchild hprocs hpipes hhead
      subst hchild hprocs hpipes
      have hc := hstage 0 c rfl
      rw [wiredLoop]
      cases rest with
      | nil =>
          -- the last round makes no pipe
          have hfork : ForkTable T first i true prevPfd pfd fds := ⟨fds, hhead, rfl⟩
          have htable := hops i prevPfd pfd fds (by simp) (by simpa using hfork)
          refine ⟨rfl, .ops ?_, .ops ⟨rfl, ?_⟩⟩
          · simp only [List.length_singleton, decide_true] at htable
            rw [List.isEmpty_nil, htable]
            exact hc
          · have := hfork.parent
            rw [if_pos rfl] at this
            rw [wiredLoop, this]
            simpa [Nat.add_assoc] using hdone
      | cons d rest =>
          have h0' : fds.get 0 ≠ none := by rwa [hhead.get_zero]
          have hroom := FdTable.room_pipeFds h0' (first + i)
          have hfork : ForkTable T first i false prevPfd (fds.pipeFds (first + i))
              (fds.pipe (first + i)) := ⟨fds, hhead, by simpa using ⟨hroom, rfl⟩⟩
          have hlast : decide (i + 1 = i + (c :: d :: rest).length) = false := by simp
          have htable := hops i prevPfd _ _ (by simp) (by rw [hlast]; exact hfork)
          rw [hlast] at htable
          -- the child has its table, and the shell goes to the next round with the new pipe
          refine .pipe ⟨rfl, .ops ?_, .ops ⟨rfl, ?_⟩⟩
          · rw [List.isEmpty_cons, htable]
            exact hc
          · have := hfork.parent
            rw [if_neg (by simp)] at this
            refine ih (by simp) (i + 1) _ _ _ rfl (by simp; omega) (by simp; omega) this ?_ ?_ ?_
            · rw [show i + 1 + (d :: rest).length = i + (c :: d :: rest).length by
                simp only [List.length_cons]; omega]
              exact hops
            · intro j c' hj
              have := hstage (j + 1) c' hj
              rw [List.length_cons] at this
              rw [show i + 1 + j = i + (j + 1) by omega,
                show i + 1 + (d :: rest).length = i + ((d :: rest).length + 1) by omega]
              exact this
            · rw [List.length_cons] at hdone
              rw [show i + 1 + (d :: rest).length = i + ((d :: rest).length + 1) by omega]
              exact hdone

/-- The whole loop, for any number of commands. -/
theorem wiredLoop_start_solo {χ : Type} {child : Nat → Bool → Int × Int → Int × Int → List FdOp}
    {stage : χ → Prog α} {done : Prog α} (h0 : T.get 0 ≠ none) (cs : List χ)
    (pfd prevPfd : Int × Int) (base first : Nat)
    (hops : ∀ j prevPfd pfd Y, j < cs.length →
      ForkTable T first j (j + 1 = cs.length) prevPfd pfd Y →
      Y.ops (child j (j + 1 = cs.length) prevPfd pfd) = stageTable T first cs.length j)
    (hstage : ∀ i c, cs[i]? = some c → (stage c).Child env U (R (base + i))
      (stageTable T first cs.length i))
    (hdone : done.Solo env U R Q ⟨none, base + cs.length, first + (cs.length - 1), T⟩) :
    (wiredLoop child stage done cs 0 pfd prevPfd).Solo env U R Q ⟨none, base, first, T⟩ := by
  by_cases hne : cs = []
  · subst hne
    exact hdone
  · refine wiredLoop_solo h0 cs hne 0 pfd prevPfd _ rfl rfl rfl (by simp [HeadTable]) ?_ ?_ ?_
    · simpa using hops
    · intro j c hj
      simpa using hstage j c hj
    · simpa using hdone

/-- The loop of the shell, for any number of commands. -/
theorem pipeLoop_start_solo {χ : Type} {stage : χ → Prog α} {done : Prog α} (h0 : T.get 0 ≠ none)
    (cs : List χ) (pfd prevPfd : Int × Int) (base first : Nat)
    (hstage : ∀ i c, cs[i]? = some c → (stage c).Child env U (R (base + i))
      (stageTable T first cs.length i))
    (hdone : done.Solo env U R Q ⟨none, base + cs.length, first + (cs.length - 1), T⟩) :
    (pipeLoop stage done cs 0 pfd prevPfd).Solo env U R Q ⟨none, base, first, T⟩ := by
  rw [pipeLoop_eq_wiredLoop]
  exact wiredLoop_start_solo h0 cs pfd prevPfd base first (fun _ _ _ _ _ hY => hY.child) hstage
    hdone

/-! ## The stages of the shell -/

/-- Expansion only calls `glob`, and goes on with its continuation unless the
words do not fit. -/
theorem expandWords_rule {P : Prog α → Prop}
    (hglob : ∀ pat k, (∀ w, P (k (env.glob w pat))) → P (.call (.glob pat) k)) (hub : U → P .ub)
    {ws acc : List Str} (hfits : Fits env ws acc.length ∨ U) {f : List Str → Prog α}
    (hf : ∀ args, P (f args)) : P (expandWords ws acc >>= f) := by
  induction ws generalizing acc with
  | nil =>
      rw [expandWords]
      by_cases hlt : acc.length < maxArg
      · rw [if_pos hlt]
        exact hf acc
      · rw [if_neg hlt]
        exact hub (hfits.resolve_left hlt)
  | cons word ws ih =>
      rw [expandWords]
      simp only [glob, Prog.call_bind, Prog.ret_bind]
      refine hglob _ _ fun w => ?_
      have hfits' : Fits env ws (acc ++ (env.glob w word).getD [word]).length ∨ U := by
        rw [List.length_append]
        exact hfits.imp_left fun h => h w
      by_cases hle : acc.length + ((env.glob w word).getD [word]).length ≤ maxArg
      · rw [if_pos hle]
        exact ih hfits'
      · have hU : U := hfits'.resolve_left fun h => by
          have := h.le w
          simp only [List.length_append] at this
          omega
        rw [if_neg hle]
        exact hub hU

theorem runStage_child {R : List Str → FdTable → Prop} {c : Str}
    (hfits : ((tokens c).length < maxArg ∧ Fits env (tokens c) 0) ∨ U) (hR : R (tokens c) T) :
    (runStage c).Child env U R T := by
  rw [runStage]
  by_cases hlt : (tokens c).length < maxArg
  · rw [if_pos hlt]
    exact expandWords_rule (P := fun p => p.Child env U R T) (fun _ _ h => .glob h) id
      (hfits.imp_left And.right) fun _ => ⟨hR, .printf trivial⟩
  · rw [if_neg hlt]
    exact hfits.resolve_left fun h => hlt h.1

/-- What process `pid` of the pipe loop executes, and its table there: it runs stage
`pid - 1`. -/
def ExecsStage (T : FdTable) (first : Nat) (cs : List Str) (pid : Nat) (args : List Str)
    (X : FdTable) : Prop :=
  ∃ i c, pid = 1 + i ∧ cs[i]? = some c ∧ args = tokens c ∧ X = stageTable T first cs.length i

/-- In every state that the pipe loop of `main` can reach, stage `i` has at its
`execvp` the shell's table with descriptor 0 at pipe `i - 1` and descriptor 1
at pipe `i`, and the shell has its own table once the loop has ended. -/
theorem pipeline_descriptors (M : Machine W Locals) (hM : ∀ l, M.next l = none)
    {line backup : Str} {heap : Mem} {commands : List Ptr} {cs : List Str}
    (hcs : Commands heap commands cs) {argv ex : PtrArr} (ha : argv.length = maxArg)
    (hex : ex.length = maxArg) (l : Locals) {T : FdTable} (h0 : T.get 0 ≠ none) (w : W)
    (first : Nat) (unread : Ofd → Str) {s : Sys W Locals}
    (hs : Reachable (Step M) (Sys.start
      (pipeLoop (pipeStage (line :: backup :: heap) argv ex) (do printf prompt; pure l)
        commands 0 (-1, -1) (-1, -1)) T w first unread) s) :
    (∀ i p args k, s.procs[i + 1]? = some p → p.code = .prog (.execvp args k) →
      ∃ c, cs[i]? = some c ∧ args = tokens c ∧ p.fds = stageTable T first cs.length i) ∧
    (∀ p a, s.procs[0]? = some p → p.code = .prog (.ret a) → p.fds = T) := by
  have hsolo : (pipeLoop runStage (printf prompt) cs 0 (-1, -1) (-1, -1)).Solo M.env True
      (ExecsStage T first cs) (fun _ v => v.fds = T) ⟨none, 1, first, T⟩ :=
    pipeLoop_start_solo h0 cs _ _ 1 first
      (fun i c hc => runStage_child (.inr trivial) ⟨i, c, rfl, hc, rfl, rfl⟩) (.printf rfl)
  have hrel : Prog.Rel (fun _ _ => True)
      (pipeLoop (pipeStage (line :: backup :: heap) argv ex) (do printf prompt; pure l)
        commands 0 (-1, -1) (-1, -1))
      (pipeLoop runStage (printf prompt) cs 0 (-1, -1) (-1, -1)) :=
    commands_rel hcs ha hex trivial
  have hinv := (hrel.solo (Q := fun _ v => v.fds = T) (fun _ _ _ _ h => h) hsolo).reachable
    (fun a v q _ hq => by rw [hM] at hq; cases hq) hs
  constructor
  · intro i p args k hp hcode
    obtain ⟨j, c, hj, hc, hargs, hfds⟩ := hinv.execvp hp hcode
    obtain rfl : i = j := by omega
    exact ⟨c, hc, hargs, hfds⟩
  · intro p a hp hcode
    obtain ⟨-, v, hQ, hv, -⟩ := hinv.ret hp hcode
    rw [← hv]
    exact hQ

/-- At the `execvp` of `ls` in `ls | wc`, descriptor 1 is the pipe. -/
theorem ls_wc_descriptors : ∃ (s : Sys Unit Locals) (p : Proc Locals),
    s.procs[1]? = some p ∧ p.code = .prog (.execvp ["ls".toList]
      (do printf execFailed; exit 1)) ∧ p.fds = stageTable stdFds 0 2 0 := by
  let M : Machine Unit Locals := ⟨4096, false, .ofExec fun _ => none, fun _ => none⟩
  let heap : Mem := ["ls".toList ++ [NUL], "wc".toList ++ [NUL]]
  let l : Locals := ⟨[[], []], List.replicate maxArg .undef, List.replicate maxArg .undef⟩
  have hcs : Commands heap [.at 2 0, .at 3 0] ["ls".toList, "wc".toList] :=
    .cons ⟨0, rfl, rfl, by decide⟩ (.cons ⟨1, rfl, rfl, by decide⟩ .nil)
  let start : Sys Unit Locals := Sys.start
    (pipeLoop (pipeStage ([] :: [] :: heap) l.argv l.expandedArgv) (do printf prompt; pure l)
      [.at 2 0, .at 3 0] 0 (-1, -1) (-1, -1)) stdFds () 0 fun _ => []
  obtain ⟨s, p, hs, hp, hcode⟩ : ∃ s p, Reachable (Step M) start s ∧ s.procs[1]? = some p ∧
      p.code = .prog (.execvp ["ls".toList] (do printf execFailed; exit 1)) := by
    -- `pipe` and `fork` of the shell, then `close`, `dup2`, `close` and `glob` of the child
    refine ⟨_, _, .tail (.tail (.tail (.tail (.tail (.tail (.refl start) ⟨0, _, rfl, rfl⟩)
      ⟨0, _, rfl, rfl⟩) ⟨1, _, rfl, rfl⟩) ⟨1, _, rfl, rfl⟩) ⟨1, _, rfl, rfl⟩) ⟨1, _, rfl, rfl⟩,
      rfl, rfl⟩
  have h := pipeline_descriptors M (fun _ => rfl) hcs rfl rfl l (by decide) () 0 _ hs
  obtain ⟨c, -, -, hfds⟩ := h.1 0 p _ _ hp hcode
  exact ⟨s, p, hp, hcode, hfds⟩

end Shell

end UnixSys
