import UnixSys.Shell.Wiring
import UnixSys.Posix.Stage

/-!
# Flow — what goes through a pipeline

A `Pipeline` is the pipe loop about to run stages that read to end of file. The
states that any interleaving can reach are `Pipeline.State`: the shell before a
round, in a round with one stage on its way, or past the last round. The rank
of a state goes down with every step, and the only state without successor that
is not the last one is a stage that has filled its pipe while the shell waits
for it.
-/

namespace UnixSys.Shell

open Posix

/-- What each stage reads and writes. -/
def flow : List Stage → Str → List (Str × Str)
  | [], _ => []
  | g :: gs, x => (x, g.result x) :: flow gs (g.result x)

/-- What the last stage writes. -/
def composed (gs : List Stage) (x : Str) : Str := gs.foldl (fun x g => g.result x) x

theorem flow_append (gs gs' : List Stage) (x : Str) :
    flow (gs ++ gs') x = flow gs x ++ flow gs' (composed gs x) := by
  induction gs generalizing x with
  | nil => rfl
  | cons g gs ih => simp [flow, composed, ih]

theorem composed_append (gs gs' : List Stage) (x : Str) :
    composed (gs ++ gs') x = composed gs' (composed gs x) := by
  simp [composed]

@[simp] theorem length_flow (gs : List Stage) (x : Str) : (flow gs x).length = gs.length := by
  induction gs generalizing x with
  | nil => rfl
  | cons g gs ih => simp [flow, ih]

variable {W α χ : Type} {M : Machine W α}

/-- A pipe loop about to run, in a table that has nothing but what the shell
found open: every command becomes, in at most `calls` calls, the stage beside
it. -/
structure Pipeline (M : Machine W α) (χ : Type) where
  stage : χ → Prog α
  result : α
  commands : List (χ × Stage)
  table : FdTable
  stdin : Nat
  stdout : Nat
  first : Nat
  world : W
  unread : Ofd → Str
  calls : Nat
  nonempty : commands ≠ []
  next_result : M.next result = none
  get_zero : table.get 0 = some (.init stdin)
  get_one : table.get 1 = some (.init stdout)
  inherited : ∀ fd o, table.get fd = some o → ∃ n, o = .init n
  empty : ∀ id, unread (.pipeR id) = []
  execs : ∀ c ∈ commands, ∀ T, (stage c.1).Execs M.env c.2 T calls T

namespace Pipeline

variable (P : Pipeline M χ)

def done : Prog α := do
  printf prompt
  pure P.result

def start : Sys W α :=
  Sys.start (pipeLoop P.stage P.done (P.commands.map Prod.fst) 0 (-1, -1) (-1, -1)) P.table
    P.world P.first P.unread

/-- The bytes that the first stage can read. -/
def input : Str := P.unread (.init P.stdin)

def stages : List Stage := P.commands.map Prod.snd

/-- What stage `i` reads from. -/
def src (i : Nat) : Ofd := if i = 0 then .init P.stdin else .pipeR (P.first + (i - 1))

/-- What the stage after `pre` reads. -/
def reads (pre : List (χ × Stage)) : Str := composed (pre.map Prod.snd) P.input

/-- The state that the claim of progress leaves out: every stage has ended, and
the shell is at the prompt. -/
def Final (s : Sys W α) : Prop :=
  (∃ sh, s.procs[0]? = some sh ∧ sh.code = .prog (.ret P.result)) ∧
    ∀ j p, j ≠ 0 → s.procs[j]? = some p → ∃ e, p.code = .reaped e

/-! ## The states of a run -/

/-- The stages of `pre` have ended, each having read and written what it
should. -/
structure Base (pre : List (χ × Stage)) (s : Sys W α) (sh : Proc α) (dn : List (Proc α))
    (kid : Option (Proc α)) : Prop where
  shape : Shape s sh dn kid
  codes : dn.map Proc.code = (flow (pre.map Prod.snd) P.input).map fun io =>
    .reaped (.done io.1 true io.2)

/-- The stage after `pre` has `left` to read and has written `sunk`. -/
structure Moving (pre : List (χ × Stage)) (last : Bool) (left sunk : Str) (s : Sys W α) :
    Prop where
  src : s.unread (P.src pre.length) = left
  pipe : last = false → s.unread (.pipeR (P.first + pre.length)) = sunk ∧
    sunk.length ≤ M.capacity
  out : s.written (.init P.stdout) = if last then sunk else []
  fresh : ∀ id, P.first + pre.length < id → s.unread (.pipeR id) = []

/-- A stage on its way, with an upper bound of the steps that it still takes. -/
inductive Kid (M : Machine W α) (g : Stage) (T : FdTable) (x : Str) : Nat → Proc α → Str → Str → Prop
  | calling {n : Nat} {kid : Proc α} {p : Prog α} : kid.code = .prog p →
      p.Execs M.env g T n kid.fds → Kid M g T x (n + g.steps x + 2) kid x []
  | running {n : Nat} {kid : Proc α} {input left output : Str} {eof : Bool} :
      kid.code = .image g.img input eof output → kid.fds = T → input ++ left = x →
      g.img.Finishes n left input eof output (g.result x) →
      Kid M g T x (n + 1) kid left output
  | ended {kid : Proc α} : kid.code = M.ended (.done x true (g.result x)) →
      Kid M g T x 0 kid [] (g.result x)

/-- The pipes that ended stages wrote to held all of it. -/
def Within (K : Nat) (io : List (Str × Str)) : Prop := ∀ p ∈ io, p.2.length ≤ K

/-- The states, by a rank: the rounds left, and the steps left in the round. -/
inductive State : Nat → Nat → Sys W α → Prop
  | head {pre rest : List (χ × Stage)} {c d : χ × Stage} {pfd prevPfd : Int × Int}
      {s : Sys W α} {sh : Proc α} {dn : List (Proc α)} :
      P.commands = pre ++ c :: d :: rest → P.Base pre s sh dn none →
      Within M.capacity (flow (pre.map Prod.snd) P.input) →
      s.pipes = P.first + pre.length →
      sh.code = .prog (pipeLoop P.stage P.done ((c :: d :: rest).map Prod.fst) pre.length pfd
        prevPfd) →
      HeadTable P.table P.first pre.length prevPfd sh.fds →
      P.Moving pre false (P.reads pre) [] s →
      State (rest.length + 2) (P.calls + c.2.steps (P.reads pre) + 20) s
  | fork {pre rest : List (χ × Stage)} {c : χ × Stage} {pfd prevPfd : Int × Int}
      {s : Sys W α} {sh : Proc α} {dn : List (Proc α)} :
      P.commands = pre ++ c :: rest → P.Base pre s sh dn none →
      Within M.capacity (flow (pre.map Prod.snd) P.input) →
      s.pipes = P.first + pre.length + (if rest.isEmpty then 0 else 1) →
      sh.code = .prog (forkRound P.stage P.done c.1 (rest.map Prod.fst) pre.length pfd prevPfd) →
      ForkTable P.table P.first pre.length rest.isEmpty prevPfd pfd sh.fds →
      P.Moving pre rest.isEmpty (P.reads pre) [] s →
      State (rest.length + 1) (P.calls + c.2.steps (P.reads pre) + 19) s
  | round {pre rest : List (χ × Stage)} {c : χ × Stage} {pfd prevPfd : Int × Int}
      {s : Sys W α} {sh kid : Proc α} {dn : List (Proc α)} {l : List Int} {n : Nat}
      {left sunk : Str} :
      P.commands = pre ++ c :: rest → P.Base pre s sh dn (some kid) →
      Within M.capacity (flow (pre.map Prod.snd) P.input) →
      s.pipes = P.first + pre.length + (if rest.isEmpty then 0 else 1) →
      sh.code = .prog (Prog.ops (l.map .close) (.waitpid (pre.length + 1)
        (pipeLoop P.stage P.done (rest.map Prod.fst) (pre.length + 1) pfd prevPfd))) →
      (if rest.isEmpty then sh.fds.ops (l.map .close) = P.table
        else HeadTable P.table P.first (pre.length + 1) prevPfd (sh.fds.ops (l.map .close))) →
      Kid M c.2 (P.table.wire (stageSrc P.first pre.length)
        (stageSnk P.first pre.length rest.isEmpty)) (P.reads pre) n kid left sunk →
      P.Moving pre rest.isEmpty left sunk s →
      State (rest.length + 1) (l.length + n + 1) s
  | finish {s : Sys W α} {sh : Proc α} {dn : List (Proc α)} :
      P.Base P.commands s sh dn none →
      Within M.capacity (flow P.stages P.input).dropLast →
      sh.code = .prog P.done →
      s.written (.init P.stdout) = composed P.stages P.input →
      State 0 1 s
  | final {s : Sys W α} {sh : Proc α} {dn : List (Proc α)} :
      P.Base P.commands s sh dn none →
      Within M.capacity (flow P.stages P.input).dropLast →
      sh.code = .prog (.ret P.result) →
      s.written (.init P.stdout) = composed P.stages P.input →
      State 0 0 s

/-! ## Steps of a stage -/

section
variable {P : Pipeline M χ} {pre : List (χ × Stage)} {last : Bool} {left sunk : Str}
  {s s' : Sys W α}

theorem src_ne_pipeR {i id : Nat} (h : P.first + i ≤ id) : P.src i ≠ .pipeR id := by
  rw [src]
  split_ifs
  · simp
  · intro he
    injection he
    omega

theorem src_ne_pipeW (i id : Nat) : P.src i ≠ .pipeW id := by
  rw [src]
  split_ifs <;> simp

/-- A state that differs in nothing that `Moving` looks at. -/
theorem Moving.congr (h : P.Moving pre last left sunk s) (hu : s'.unread = s.unread)
    (hw : s'.written = s.written) : P.Moving pre last left sunk s' := by
  obtain ⟨h1, h2, h3, h4⟩ := h
  exact ⟨by rw [hu, h1], by rw [hu]; exact h2, by rw [hw, h3], by rw [hu]; exact h4⟩

theorem Moving.read {b : Byte} (h : P.Moving pre last (b :: left) sunk s)
    (hu : s'.unread = Function.update s.unread (P.src pre.length) left)
    (hw : s'.written = s.written) : P.Moving pre last left sunk s' := by
  refine ⟨by rw [hu, Function.update_self], fun hl => ?_, by rw [hw, h.out], fun id hid => ?_⟩
  · rw [hu, Function.update_of_ne (src_ne_pipeR (Nat.le_refl _)).symm]
    exact h.pipe hl
  · rw [hu, Function.update_of_ne (src_ne_pipeR (by omega)).symm]
    exact h.fresh id hid

theorem Moving.writePipe {b : Byte} (h : P.Moving pre false left sunk s)
    (hlt : sunk.length < M.capacity)
    (hu : s'.unread = Function.update s.unread (.pipeR (P.first + pre.length)) (sunk ++ [b]))
    (hw : s'.written = s.written) : P.Moving pre false left (sunk ++ [b]) s' := by
  refine ⟨?_, fun _ => ⟨by rw [hu, Function.update_self], by simp; omega⟩, by rw [hw, h.out]; rfl,
    fun id hid => ?_⟩
  · rw [hu, Function.update_of_ne (src_ne_pipeR (Nat.le_refl _)), h.src]
  · rw [hu, Function.update_of_ne (by simp; omega)]
    exact h.fresh id hid

theorem Moving.writeOut {b : Byte} (h : P.Moving pre true left sunk s)
    (hu : s'.unread = s.unread)
    (hw : s'.written = Function.update s.written (.init P.stdout) (sunk ++ [b])) :
    P.Moving pre true left (sunk ++ [b]) s' :=
  ⟨by rw [hu, h.src], fun hl => absurd hl (by simp), by rw [hw, Function.update_self]; rfl,
    fun id hid => by rw [hu]; exact h.fresh id hid⟩

/-- The table of the stage after `pre`. -/
def tableAt (P : Pipeline M χ) (i : Nat) (last : Bool) : FdTable :=
  P.table.wire (stageSrc P.first i) (stageSnk P.first i last)

theorem tableAt_zero (i : Nat) (last : Bool) : (P.tableAt i last).get 0 = some (P.src i) := by
  rw [tableAt, FdTable.get_wire, if_neg (by simp), stageSrc, src]
  by_cases hi : i = 0
  · simp [hi, P.get_zero]
  · simp [hi]

theorem tableAt_one (i : Nat) (last : Bool) : (P.tableAt i last).get 1 =
    some (if last then .init P.stdout else .pipeW (P.first + i)) := by
  rw [tableAt, FdTable.get_wire, stageSnk]
  cases last with
  | true => simp [P.get_one]
  | false => simp

theorem readStep_iff {pid : Nat} {p : Proc α} {img : Image} {input output : Str} {eof : Bool}
    {o : Ofd} (ho : p.fds.get 0 = some o) (hne : ∀ id, o ≠ .pipeW id) :
    ReadStep M s pid p img input eof output s' ↔ ReadFrom s pid p img input eof output o s' := by
  cases o with
  | pipeW id => exact absurd rfl (hne id)
  | init n => simp only [ReadStep, ho]
  | file path how => simp only [ReadStep, ho]
  | pipeR id => simp only [ReadStep, ho]

/-- A read can happen when there is something to read, or never will be. -/
theorem readFrom_exists {pid : Nat} {p : Proc α} {img : Image} {input output : Str} {eof : Bool}
    {o : Ofd} (h : s.unread o ≠ [] ∨ ¬ s.MayGrow o) :
    ∃ s', ReadFrom s pid p img input eof output o s' := by
  cases hu : s.unread o with
  | nil =>
      simp only [ReadFrom, hu]
      exact ⟨_, h.resolve_left (not_not.mpr hu), rfl⟩
  | cons b rest =>
      simp only [ReadFrom, hu]
      exact ⟨_, rfl⟩

/-- A step of the stage after `pre`, while a reader of its pipe is there. -/
theorem Kid.step {g : Stage} {x : Str} {n pid : Nat} {kid : Proc α}
    (h : Kid M g (P.tableAt pre.length last) x n kid left sunk)
    (hm : P.Moving pre last left sunk s)
    (hreader : last = false → s.Holds (.pipeR (P.first + pre.length)))
    (hs : ProcStep M s pid kid s') :
    ∃ kid' left' sunk' m, s'.procs = s.procs.set pid kid' ∧ m < n ∧
      Kid M g (P.tableAt pre.length last) x m kid' left' sunk' ∧
      P.Moving pre last left' sunk' s' ∧ kid'.parent = kid.parent ∧ s'.pipes = s.pipes := by
  obtain ⟨parent, code, fds, buf⟩ := kid
  cases h with
  | @calling n _ p hcode hexecs =>
      simp only at hcode hexecs
      subst hcode
      simp only [ProcStep] at hs
      cases hexecs with
      | @close n _ fd k hk =>
          simp only [ProgStep, Call.apply, Sys.ctx] at hs
          subst hs
          exact ⟨_, left, [], n + g.steps left + 2, rfl, by omega, .calling rfl hk,
            hm.congr rfl rfl, rfl, rfl⟩
      | @dup2 n _ old new k hk =>
          simp only [ProgStep, Call.apply, Sys.ctx] at hs
          subst hs
          exact ⟨_, left, [], n + g.steps left + 2, rfl, by omega, .calling rfl hk,
            hm.congr rfl rfl, rfl, rfl⟩
      | @glob n _ pat k hk =>
          simp only [ProgStep, Call.apply, Sys.ctx] at hs
          subst hs
          exact ⟨_, left, [], n + g.steps left + 2, rfl, by omega, .calling rfl (hk s.world),
            hm.congr rfl rfl, rfl, rfl⟩
      -- the image starts with nothing read and nothing written
      | @execvp n argv k hexec =>
          obtain ⟨w', hw'⟩ := hexec s.world
          simp only [ProgStep, hw'] at hs
          subst hs
          exact ⟨_, left, [], g.steps left + 1, rfl, by omega,
            .running rfl rfl rfl (g.finishes left), hm.congr rfl rfl, rfl, rfl⟩
  | @running n _ input left output eof hcode hfds hx hfin =>
      simp only at hcode hfds
      subst hcode hfds
      simp only [ProcStep] at hs
      cases hfin with
      | exit hact =>
          simp only [hact] at hs
          rw [List.append_nil] at hx
          subst hs hx
          exact ⟨_, [], _, 0, rfl, by omega, .ended rfl, hm.congr rfl rfl, rfl, rfl⟩
      | @read n b rest _ _ _ hact hfin =>
          simp only [hact] at hs
          rw [readStep_iff (by exact tableAt_zero pre.length last) (src_ne_pipeW _)] at hs
          simp only [ReadFrom, hm.src] at hs
          subst hs
          exact ⟨_, rest, sunk, n + 1, rfl, by omega,
            .running rfl rfl (by rw [List.append_assoc]; exact hx) hfin,
            hm.read rfl rfl, rfl, rfl⟩
      | @eof n _ _ _ hact hfin =>
          simp only [hact] at hs
          rw [readStep_iff (by exact tableAt_zero pre.length last) (src_ne_pipeW _)] at hs
          simp only [ReadFrom, hm.src] at hs
          obtain ⟨-, rfl⟩ := hs
          exact ⟨_, [], sunk, n + 1, rfl, by omega, .running rfl rfl hx hfin,
            hm.congr rfl rfl, rfl, rfl⟩
      | @write n b _ _ _ _ _ hact hfin =>
          simp only [hact, WriteStep, tableAt_one] at hs
          cases last with
          | true =>
              simp only [if_true] at hs
              subst hs
              have hout := hm.out
              rw [if_pos rfl] at hout
              exact ⟨_, left, sunk ++ [b], n + 1, rfl, by omega, .running rfl rfl hx hfin,
                hm.writeOut (b := b) rfl (by simp only [hout]), rfl, rfl⟩
          | false =>
              simp only [Bool.false_eq_true, if_false] at hs
              -- without a reader the write would fail, and a full pipe makes it wait
              rcases hs with ⟨hno, -⟩ | ⟨-, hlt, rfl⟩
              · exact absurd (hreader rfl) hno
              · have hpipe := (hm.pipe rfl).1
                rw [hpipe] at hlt
                exact ⟨_, left, sunk ++ [b], n + 1, rfl, by omega, .running rfl rfl hx hfin,
                  hm.writePipe (b := b) hlt (by simp only [hpipe]) rfl, rfl, rfl⟩
  | ended hcode =>
      simp only at hcode
      subst hcode
      by_cases hi : M.sigchldIgnored = true <;> simp [ProcStep, Machine.ended, hi] at hs

end

/-! ## Steps of the pipeline -/

section
variable {P : Pipeline M χ} {s s' : Sys W α}

theorem Base.length {pre : List (χ × Stage)} {sh : Proc α} {dn : List (Proc α)}
    {kid : Option (Proc α)} (h : P.Base pre s sh dn kid) : dn.length = pre.length := by
  have := congrArg List.length h.codes
  simpa using this

theorem ops_close_get {T : FdTable} {l : List Int} {fd : Int} {o : Ofd}
    (h : (T.ops (l.map .close)).get fd = some o) : T.get fd = some o := by
  induction l generalizing T with
  | nil => exact h
  | cons x l ih =>
      have := ih h
      rw [FdTable.get_close] at this
      split_ifs at this
      exact this

theorem execs_ops {g : Stage} {T T' : FdTable} {n : Nat} {l : List FdOp} {p : Prog α}
    (h : p.Execs M.env g T' n (T.ops l)) :
    (Prog.ops l p).Execs M.env g T' (l.length + n) T := by
  induction l generalizing T with
  | nil => simpa [Prog.ops, FdTable.ops] using h
  | cons op l ih =>
      rw [List.length_cons, Nat.add_right_comm]
      cases op with
      | close fd => exact .close (ih h)
      | dup2 old new => exact .dup2 (ih h)

theorem parentOps_eq (i : Nat) (prevPfd : Int × Int) : ∃ l : List Int,
    parentOps i prevPfd = l.map .close ∧ l.length ≤ 2 := by
  rw [parentOps]
  split_ifs
  · exact ⟨[], rfl, by simp⟩
  · exact ⟨[prevPfd.1, prevPfd.2], rfl, by simp⟩

theorem length_childOps_le (i : Nat) (last : Bool) (prevPfd pfd : Int × Int) :
    (childOps i last prevPfd pfd).length ≤ 6 := by
  rw [childOps]
  split_ifs <;> simp

/-- The loop at the start of a round, nothing of which has happened. -/
theorem State.enter (pre : List (χ × Stage)) {rest : List (χ × Stage)} {sh : Proc α}
    {dn : List (Proc α)}
    {pfd prevPfd : Int × Int} (hcmds : P.commands = pre ++ rest) (hrest : rest ≠ [])
    (hbase : P.Base pre s sh dn none)
    (hwithin : Within M.capacity (flow (pre.map Prod.snd) P.input))
    (hpipes : s.pipes = P.first + pre.length)
    (hcode : sh.code = .prog (pipeLoop P.stage P.done (rest.map Prod.fst) pre.length pfd prevPfd))
    (hhead : HeadTable P.table P.first pre.length prevPfd sh.fds)
    (hsrc : s.unread (P.src pre.length) = P.reads pre)
    (hfresh : ∀ id, P.first + pre.length ≤ id → s.unread (.pipeR id) = [])
    (hout : s.written (.init P.stdout) = []) : ∃ n, P.State rest.length n s := by
  have hmoving : ∀ last, P.Moving pre last (P.reads pre) [] s := fun last =>
    ⟨hsrc, fun _ => ⟨hfresh _ (Nat.le_refl _), by simp⟩, by simp [hout],
      fun id hid => hfresh id (by omega)⟩
  match rest, hrest with
  | [c], _ =>
      have hfork : sh.code =
          .prog (forkRound P.stage P.done c.1 [] pre.length pfd prevPfd) := by
        rw [hcode, List.map_cons, pipeLoop_cons]
        rfl
      exact ⟨_, .fork hcmds hbase hwithin (by simpa using hpipes) hfork ⟨_, hhead, rfl⟩
        (hmoving true)⟩
  | c :: d :: rest, _ =>
      exact ⟨_, .head hcmds hbase hwithin hpipes hcode hhead (hmoving false)⟩

/-- The shell at the `pipe` of a round that is not the last. -/
theorem State.step_head {pre rest : List (χ × Stage)} {c d : χ × Stage} {pfd prevPfd : Int × Int}
    {sh : Proc α} {dn : List (Proc α)} (hcmds : P.commands = pre ++ c :: d :: rest)
    (hbase : P.Base pre s sh dn none)
    (hwithin : Within M.capacity (flow (pre.map Prod.snd) P.input))
    (hpipes : s.pipes = P.first + pre.length)
    (hcode : sh.code = .prog (pipeLoop P.stage P.done ((c :: d :: rest).map Prod.fst) pre.length
      pfd prevPfd))
    (hhead : HeadTable P.table P.first pre.length prevPfd sh.fds)
    (hmoving : P.Moving pre false (P.reads pre) [] s) (hs : ProcStep M s 0 sh s') :
    P.State (rest.length + 2) (P.calls + c.2.steps (P.reads pre) + 19) s' := by
  obtain ⟨parent, code, fds, buf⟩ := sh
  simp only at hcode hhead
  subst hcode
  have h0 : fds.get 0 ≠ none := by
    rw [hhead.get_zero, P.get_zero]
    simp
  have hroom := FdTable.room_pipeFds h0 s.pipes
  have hcall : pipeLoop P.stage P.done ((c :: d :: rest).map Prod.fst) pre.length pfd prevPfd =
      .call .pipe fun r => match r with
        | none => .call (.perror "pipe".toList) fun _ => .exit 1
        | some pfd => forkRound P.stage P.done c.1 ((d :: rest).map Prod.fst) pre.length pfd
            prevPfd := by
    rw [List.map_cons, pipeLoop_cons]
    refine congrArg (Prog.call .pipe) (funext fun r => ?_)
    cases r <;> rfl
  simp only [ProcStep, hcall, ProgStep, Call.apply, Sys.ctx] at hs
  subst hs
  refine .fork hcmds ⟨hbase.shape.setShell rfl hbase.shape.shell, hbase.codes⟩ hwithin ?_ rfl
    ⟨fds, hhead, ?_⟩ (hmoving.congr rfl rfl)
  · simp [Sys.commit, hpipes]
  · rw [hpipes] at hroom ⊢
    exact ⟨hroom, rfl⟩

/-- The shell at the `fork` of a round. -/
theorem State.step_fork {pre rest : List (χ × Stage)} {c : χ × Stage} {pfd prevPfd : Int × Int}
    {sh : Proc α} {dn : List (Proc α)} (hcmds : P.commands = pre ++ c :: rest)
    (hbase : P.Base pre s sh dn none)
    (hwithin : Within M.capacity (flow (pre.map Prod.snd) P.input))
    (hpipes : s.pipes = P.first + pre.length + (if rest.isEmpty then 0 else 1))
    (hcode : sh.code = .prog (forkRound P.stage P.done c.1 (rest.map Prod.fst) pre.length pfd
      prevPfd))
    (hfork : ForkTable P.table P.first pre.length rest.isEmpty prevPfd pfd sh.fds)
    (hmoving : P.Moving pre rest.isEmpty (P.reads pre) [] s) (hs : ProcStep M s 0 sh s') :
    ∃ m < P.calls + c.2.steps (P.reads pre) + 19, P.State (rest.length + 1) m s' := by
  obtain ⟨parent, code, fds, buf⟩ := sh
  simp only at hcode hfork
  subst hcode
  have hlen : s.procs.length = pre.length + 1 := by
    rw [hbase.shape.length_procs, hbase.length]
    rfl
  have hempty : (rest.map Prod.fst).isEmpty = rest.isEmpty := by cases rest <;> rfl
  simp only [ProcStep, forkRound, ProgStep, hlen, hempty] at hs
  subst hs
  obtain ⟨l, hl, hl2⟩ := parentOps_eq pre.length prevPfd
  have hl6 := length_childOps_le pre.length rest.isEmpty prevPfd pfd
  have hmem : c ∈ P.commands := by simp [hcmds]
  have hready : (P.stage c.1).Execs M.env c.2 (P.tableAt pre.length rest.isEmpty) P.calls
      (fds.ops (childOps pre.length rest.isEmpty prevPfd pfd)) := by
    rw [hfork.child]
    exact P.execs c hmem (P.tableAt pre.length rest.isEmpty)
  have hexecs := execs_ops hready
  have hparent := hfork.parent
  rw [hl] at hparent
  refine ⟨_, ?_, .round (l := l) hcmds ⟨hbase.shape.spawn hbase.shape.shell rfl, hbase.codes⟩
    hwithin hpipes (by rw [hl]; rfl) ?_ (.calling rfl hexecs) (hmoving.congr rfl rfl)⟩
  · omega
  · cases rest with
    | nil => exact hparent
    | cons d rest => exact hparent

/-- In a round that is not the last the shell holds the read end of the new
pipe. -/
theorem holds_reader {pre rest : List (χ × Stage)} {prevPfd : Int × Int} {sh : Proc α}
    {dn : List (Proc α)} {kid : Option (Proc α)} {l : List Int} {q : Prog α}
    (hbase : P.Base pre s sh dn kid) (hcode : sh.code = .prog q)
    (htable : if rest.isEmpty then sh.fds.ops (l.map .close) = P.table
      else HeadTable P.table P.first (pre.length + 1) prevPfd (sh.fds.ops (l.map .close)))
    (hlast : rest.isEmpty = false) : s.Holds (.pipeR (P.first + pre.length)) := by
  rw [if_neg (by simp [hlast]), HeadTable, if_neg (by omega)] at htable
  obtain ⟨hroom, heq⟩ := htable
  refine ⟨sh, ?_, by rw [hcode]; rfl, prevPfd.1, ops_close_get (l := l) ?_⟩
  · rw [hbase.shape.procs]
    exact List.mem_cons_self
  · have hlt := hroom.lt
    rw [heq, FdTable.get_hold hroom, if_neg (by omega), if_pos rfl]
    rfl

/-- A stage that has ended has read and written all of it. -/
theorem Kid.of_ended {g : Stage} {T : FdTable} {x left sunk : Str} {n : Nat} {kid : Proc α}
    {e : Ending} (h : Kid M g T x n kid left sunk)
    (he : kid.code = .zombie e ∨ kid.code = .reaped e) :
    left = [] ∧ sunk = g.result x ∧ e = .done x true (g.result x) := by
  cases h with
  | calling hcode _ => simp [hcode] at he
  | running hcode _ _ _ => simp [hcode] at he
  | ended hcode =>
      refine ⟨rfl, rfl, ?_⟩
      rw [hcode, Machine.ended] at he
      have heq : Ending.done x true (g.result x) = e := by
        split_ifs at he <;> simpa using he
      exact heq.symm

theorem flow_snoc (gs : List Stage) (g : Stage) (x : Str) :
    flow (gs ++ [g]) x = flow gs x ++ [(composed gs x, g.result (composed gs x))] :=
  flow_append gs [g] x

theorem reads_snoc (pre : List (χ × Stage)) (c : χ × Stage) :
    P.reads (pre ++ [c]) = c.2.result (P.reads pre) := by
  simp [reads, composed]

/-- The shell waits for a stage that has ended, and goes on with the next round
or with the end of the loop. -/
theorem State.step_wait {pre rest : List (χ × Stage)} {c : χ × Stage} {pfd prevPfd : Int × Int}
    {sh kid : Proc α} {dn : List (Proc α)} {n : Nat} {left sunk : Str}
    (hcmds : P.commands = pre ++ c :: rest) (hbase : P.Base pre s sh dn (some kid))
    (hwithin : Within M.capacity (flow (pre.map Prod.snd) P.input))
    (hpipes : s.pipes = P.first + pre.length + (if rest.isEmpty then 0 else 1))
    (hcode : sh.code = .prog (.waitpid (pre.length + 1)
      (pipeLoop P.stage P.done (rest.map Prod.fst) (pre.length + 1) pfd prevPfd)))
    (htable : if rest.isEmpty then sh.fds = P.table
      else HeadTable P.table P.first (pre.length + 1) prevPfd sh.fds)
    (hkid : Kid M c.2 (P.tableAt pre.length rest.isEmpty) (P.reads pre) n kid left sunk)
    (hmoving : P.Moving pre rest.isEmpty left sunk s) (hs : ProcStep M s 0 sh s') :
    ∃ k, P.State rest.length k s' := by
  obtain ⟨parent, code, fds, buf⟩ := sh
  simp only at hcode htable
  subst hcode
  simp only [ProcStep, ProgStep] at hs
  obtain ⟨q, e, p, hq, hqcode, hpcode, hshape, -, hpipes', hunread, hwritten⟩ :=
    WaitpidStep.cases hbase.shape (by rw [hbase.length]; rfl) hs
  cases hq
  -- the stage that was waited for has read all its input and written all its output
  obtain ⟨rfl, rfl, rfl⟩ := hkid.of_ended hqcode
  have hcodes : (dn ++ [p]).map Proc.code =
      (flow ((pre ++ [c]).map Prod.snd) P.input).map fun io =>
        Code.reaped (.done io.1 true io.2) := by
    rw [List.map_append, hbase.codes, List.map_append, List.map_singleton, List.map_singleton,
      flow_snoc, List.map_append, hpcode]
    rfl
  cases rest with
  | nil =>
      have hout := hmoving.out
      refine ⟨1, .finish ⟨hshape, hcmds ▸ hcodes⟩ ?_ rfl ?_⟩
      · rw [stages, hcmds, List.map_append, List.map_singleton, flow_snoc,
          List.dropLast_concat]
        exact hwithin
      · rw [hwritten, hout, stages, hcmds, List.map_append, composed_append]
        rfl
  | cons d rest =>
      obtain ⟨hpipe, hle⟩ := hmoving.pipe rfl
      have hi : (pre ++ [c]).length = pre.length + 1 := by simp
      refine State.enter (pre ++ [c]) (by simpa using hcmds) (by simp)
        ⟨hshape, hcodes⟩ ?_ ?_ (by rw [hi]; rfl) (hi ▸ htable) ?_ ?_ ?_
      · rw [List.map_append, List.map_singleton, flow_snoc]
        intro io hio
        rcases List.mem_append.mp hio with hio | hio
        · exact hwithin io hio
        · rw [List.mem_singleton.mp hio]
          exact hle
      · rw [hpipes', hpipes, hi]
        rfl
      · rw [hunread, hi, reads_snoc, ← hpipe, src, if_neg (by omega), Nat.add_sub_cancel]
      · intro id hid
        rw [hunread]
        exact hmoving.fresh id (by omega)
      · rw [hwritten, hmoving.out]
        rfl

/-- Every step lowers the rank. -/
theorem State.step {m n : Nat} (h : P.State m n s) (hs : Step M s s') :
    ∃ m' n', Prod.Lex (· < ·) (· < ·) (m', n') (m, n) ∧ P.State m' n' s' := by
  cases h with
  | head hcmds hbase hwithin hpipes hcode hhead hmoving =>
      rcases hbase.shape.step_cases hs with hs | ⟨p, hp, -⟩
      · exact ⟨_, _, .right _ (Nat.lt_succ_self _),
          State.step_head hcmds hbase hwithin hpipes hcode hhead hmoving hs⟩
      · cases hp
  | fork hcmds hbase hwithin hpipes hcode hfork hmoving =>
      rcases hbase.shape.step_cases hs with hs | ⟨p, hp, -⟩
      · obtain ⟨k, hk, hstate⟩ :=
          State.step_fork hcmds hbase hwithin hpipes hcode hfork hmoving hs
        exact ⟨_, k, .right _ hk, hstate⟩
      · cases hp
  | @round pre rest c pfd prevPfd s sh kid dn l n left sunk hcmds hbase hwithin hpipes hcode htable
      hkid hmoving =>
      rcases hbase.shape.step_cases hs with hs | ⟨p, hp, hs⟩
      · cases l with
        | nil =>
            -- the shell has made its calls, so its only step is the wait
            obtain ⟨k, hstate⟩ := State.step_wait hcmds hbase hwithin hpipes hcode htable hkid
              hmoving hs
            exact ⟨_, k, .left _ _ (Nat.lt_succ_self _), hstate⟩
        | cons fd l =>
            obtain ⟨parent, code, fds, buf⟩ := sh
            simp only at hcode htable
            subst hcode
            simp only [ProcStep, List.map_cons, Prog.ops, ProgStep, Call.apply, Sys.ctx] at hs
            subst hs
            exact ⟨_, l.length + n + 1, .right _ (by simp only [List.length_cons]; omega),
              .round hcmds ⟨hbase.shape.setShell rfl hbase.shape.shell, hbase.codes⟩ hwithin
                hpipes rfl htable hkid (hmoving.congr rfl rfl)⟩
      · cases hp
        obtain ⟨kid', left', sunk', k, hprocs, hk, hkid', hmoving', hparent, hpipes'⟩ :=
          Kid.step hkid hmoving (holds_reader hbase hcode htable) hs
        have hshape := hbase.shape.setKid hprocs (hparent.trans (hbase.shape.kid _ rfl))
        exact ⟨_, l.length + k + 1, .right _ (by omega),
          .round hcmds ⟨hshape, hbase.codes⟩ hwithin (hpipes' ▸ hpipes) hcode htable hkid'
            hmoving'⟩
  | finish hbase hwithin hcode hout =>
      rcases hbase.shape.step_cases hs with hs | ⟨p, hp, -⟩
      · simp only [ProcStep, hcode, done, printf, Prog.call_bind, ProgStep, Call.apply,
          Sys.ctx] at hs
        subst hs
        exact ⟨0, 0, .right _ Nat.one_pos,
          .final ⟨hbase.shape.setShell rfl hbase.shape.shell, hbase.codes⟩ hwithin rfl hout⟩
      · cases hp
  | final hbase hwithin hcode hout =>
      rcases hbase.shape.step_cases hs with hs | ⟨p, hp, -⟩
      · simp [ProcStep, hcode, ProgStep, P.next_result] at hs
      · cases hp

/-- A stage that is not the last writes more than a pipe holds. -/
def Overflows (P : Pipeline M χ) : Prop :=
  ∃ pre c d rest, P.commands = pre ++ c :: d :: rest ∧
    M.capacity < (c.2.result (P.reads pre)).length

/-- While the shell waits, nobody but ended stages ever had the write end of the
pipe that the stage reads. -/
theorem not_mayGrow {pre rest : List (χ × Stage)} {prevPfd : Int × Int} {sh kid : Proc α}
    {dn : List (Proc α)} (hbase : P.Base pre s sh dn (some kid))
    (htable : if rest.isEmpty then sh.fds = P.table
      else HeadTable P.table P.first (pre.length + 1) prevPfd sh.fds)
    (hfds : kid.fds = P.tableAt pre.length rest.isEmpty) : ¬ s.MayGrow (P.src pre.length) := by
  by_cases hi : pre.length = 0
  · simp [src, hi, Sys.MayGrow]
  rw [src, if_neg hi]
  rintro ⟨p, hp, hlive, fd, hget⟩
  have hT : ∀ id, P.table.get fd ≠ some (.pipeW id) := by
    intro id h
    obtain ⟨n, hn⟩ := P.inherited fd _ h
    cases hn
  rw [hbase.shape.procs] at hp
  rcases List.mem_cons.mp hp with rfl | hp
  · -- the shell
    by_cases hlast : rest.isEmpty = true
    · rw [if_pos hlast] at htable
      rw [htable] at hget
      exact hT _ hget
    · rw [if_neg hlast, HeadTable, if_neg (by omega)] at htable
      rw [htable.2, FdTable.get_hold htable.1] at hget
      split_ifs at hget
      · injection hget with hget
        injection hget
        omega
      · cases hget
      · exact hT _ hget
  rcases List.mem_append.mp hp with hp | hp
  · -- an ended stage
    obtain ⟨e, he⟩ := (hbase.shape.done p hp).2
    rw [he] at hlive
    cases hlive
  · -- the stage itself
    rw [Option.toList_some, List.mem_singleton] at hp
    subst hp
    rw [hfds, tableAt, FdTable.get_wire] at hget
    split_ifs at hget
    · rw [stageSnk] at hget
      split_ifs at hget
      injection hget with hget
      injection hget
      omega
    · rw [stageSrc, if_neg hi] at hget
      cases hget
    · exact hT _ hget

/-! ## Progress -/

/-- A stage on its way can move, or has filled its pipe, or has ended. -/
theorem Kid.progress {pre rest : List (χ × Stage)} {c : χ × Stage} {kid : Proc α} {n : Nat}
    {left sunk : Str} (pid : Nat) (hcmds : P.commands = pre ++ c :: rest)
    (hkid : Kid M c.2 (P.tableAt pre.length rest.isEmpty) (P.reads pre) n kid left sunk)
    (hmoving : P.Moving pre rest.isEmpty left sunk s)
    (hgrow : kid.fds = P.tableAt pre.length rest.isEmpty → ¬ s.MayGrow (P.src pre.length))
    (hreader : rest.isEmpty = false → s.Holds (.pipeR (P.first + pre.length))) :
    (∃ s', ProcStep M s pid kid s') ∨ P.Overflows ∨ ∃ e, kid.code = M.ended e := by
  obtain ⟨parent, code, fds, buf⟩ := kid
  cases hkid with
  | @calling n _ p hcode hexecs =>
      simp only at hcode hexecs
      subst hcode
      refine .inl ?_
      simp only [ProcStep]
      cases hexecs with
      | close _ => exact ⟨_, rfl⟩
      | dup2 _ => exact ⟨_, rfl⟩
      | glob _ => exact ⟨_, rfl⟩
      | execvp hexec =>
          obtain ⟨w', hw'⟩ := hexec s.world
          simp only [ProgStep, hw']
          exact ⟨_, rfl⟩
  | @running n _ input left output eof hcode hfds hx hfin =>
      simp only at hcode hfds hgrow
      subst hcode hfds
      simp only [ProcStep]
      cases hfin with
      | exit hact =>
          simp only [hact]
          exact .inl ⟨_, rfl⟩
      | read hact _ =>
          simp only [hact]
          obtain ⟨s', hs'⟩ := readFrom_exists (.inl (by rw [hmoving.src]; simp))
          exact .inl ⟨s', (readStep_iff (tableAt_zero pre.length rest.isEmpty)
            (src_ne_pipeW _)).mpr hs'⟩
      | eof hact _ =>
          simp only [hact]
          -- no writer is left, so the read finds the end of file
          obtain ⟨s', hs'⟩ := readFrom_exists (.inr (hgrow rfl))
          exact .inl ⟨s', (readStep_iff (tableAt_zero pre.length rest.isEmpty)
            (src_ne_pipeW _)).mpr hs'⟩
      | @write n b _ _ _ _ _ hact hfin =>
          simp only [hact, WriteStep, tableAt_one]
          cases rest with
          | nil => exact .inl ⟨_, rfl⟩
          | cons d rest =>
              obtain ⟨hpipe, hle⟩ := hmoving.pipe rfl
              by_cases hlt : sunk.length < M.capacity
              · refine .inl ⟨_, .inr ⟨hreader rfl, ?_, rfl⟩⟩
                rw [hpipe]
                exact hlt
              -- the pipe is full, and the stage has another byte to write
              · have := hfin.output_prefix.length_le
                rw [List.length_append, List.length_singleton] at this
                exact .inr (.inl ⟨pre, c, d, rest, hcmds, by omega⟩)
  | ended hcode => exact .inr (.inr ⟨_, hcode⟩)

/-- A state that is not the last one has a successor, unless some stage writes
more than its pipe holds. -/
theorem State.progress {m n : Nat} (h : P.State m n s) :
    P.Final s ∨ (∃ s', Step M s s') ∨ P.Overflows := by
  cases h with
  | @head pre rest c d pfd prevPfd _ sh _ hcmds hbase hwithin hpipes hcode hhead hmoving =>
      obtain ⟨s', hs'⟩ : ∃ s', ProcStep M s 0 sh s' := by
        simp only [ProcStep, hcode, List.map_cons, pipeLoop_cons, newPipe, List.isEmpty_cons,
          Bool.false_eq_true, if_false, pipe, Prog.call_bind, ProgStep, Call.apply]
        exact ⟨_, rfl⟩
      exact .inr (.inl ⟨s', hbase.shape.step_shell hs'⟩)
  | @fork _ _ _ _ _ _ sh _ hcmds hbase hwithin hpipes hcode hfork hmoving =>
      obtain ⟨s', hs'⟩ : ∃ s', ProcStep M s 0 sh s' := by
        simp only [ProcStep, hcode, forkRound, ProgStep]
        exact ⟨_, rfl⟩
      exact .inr (.inl ⟨s', hbase.shape.step_shell hs'⟩)
  | @round pre rest c pfd prevPfd s sh kid dn l n left sunk hcmds hbase hwithin hpipes hcode htable
      hkid hmoving =>
      cases l with
      | cons fd l =>
          obtain ⟨s', hs'⟩ : ∃ s', ProcStep M s 0 sh s' := by
            simp only [ProcStep, hcode, List.map_cons, Prog.ops, ProgStep, Call.apply]
            exact ⟨_, rfl⟩
          exact .inr (.inl ⟨s', hbase.shape.step_shell hs'⟩)
      | nil =>
          have hgrow := not_mayGrow hbase htable
          have hreader := holds_reader hbase hcode htable
          rcases Kid.progress (dn.length + 1) hcmds hkid hmoving hgrow hreader with
            ⟨s', hs⟩ | hover | ⟨e, he⟩
          · exact .inr (.inl ⟨s', hbase.shape.step_kid hs⟩)
          · exact .inr (.inr hover)
          · -- the stage has ended: the shell can wait for it
            have hget := hbase.shape.getElem?_kid
            rw [hbase.length] at hget
            have hkidp := hbase.shape.kid kid rfl
            obtain ⟨s', hs'⟩ : ∃ s', ProcStep M s 0 sh s' := by
              rw [Machine.ended] at he
              simp only [ProcStep, hcode, List.map_nil, Prog.ops, ProgStep, WaitpidStep, hget,
                hkidp, if_true, he]
              by_cases hi : M.sigchldIgnored = true
              · simp only [if_pos hi]
                exact ⟨_, rfl⟩
              · simp only [if_neg hi]
                exact ⟨_, rfl⟩
            exact .inr (.inl ⟨s', hbase.shape.step_shell hs'⟩)
  -- the loop is over, and the shell prints the prompt
  | @finish _ sh _ hbase hwithin hcode hout =>
      obtain ⟨s', hs'⟩ : ∃ s', ProcStep M s 0 sh s' := by
        simp only [ProcStep, hcode, done, printf, Prog.call_bind, ProgStep, Call.apply]
        exact ⟨_, rfl⟩
      exact .inr (.inl ⟨s', hbase.shape.step_shell hs'⟩)
  | @final _ sh dn hbase hwithin hcode hout =>
      refine .inl ⟨⟨sh, by rw [hbase.shape.procs]; rfl, hcode⟩, fun j p hj hp => ?_⟩
      rcases hbase.shape.getElem?_cases hp with ⟨rfl, -⟩ | hmem | ⟨-, hnone⟩
      · exact absurd rfl hj
      · exact (hbase.shape.done p hmem).2
      · cases hnone

/-! ## Every run -/

theorem State.start : ∃ n, P.State P.commands.length n P.start := by
  have hbase : P.Base [] P.start ⟨none, .prog (pipeLoop P.stage P.done (P.commands.map Prod.fst) 0
      (-1, -1) (-1, -1)), P.table, []⟩ [] none :=
    ⟨⟨rfl, rfl, by simp, by simp⟩, rfl⟩
  exact State.enter [] rfl P.nonempty hbase (by simp [flow, Within]) rfl rfl rfl rfl
    (fun id _ => P.empty id) rfl

theorem State.of_reachable (hs : Reachable (Step M) P.start s) : ∃ m n, P.State m n s := by
  refine hs.invariant (I := fun s => ∃ m n, P.State m n s) ⟨_, State.start⟩ ?_
  rintro s s' ⟨m, n, h⟩ hstep
  obtain ⟨m', n', -, h'⟩ := h.step hstep
  exact ⟨m', n', h'⟩

/-- Every stage but the last writes no more than a pipe holds. -/
def Fits (P : Pipeline M χ) : Prop := Within M.capacity (flow P.stages P.input).dropLast

theorem Fits.not_overflows (h : P.Fits) : ¬ P.Overflows := by
  rintro ⟨pre, c, d, rest, hcmds, hlt⟩
  have hflow : flow P.stages P.input = flow (pre.map Prod.snd) P.input ++
      (P.reads pre, c.2.result (P.reads pre)) ::
        flow ((d :: rest).map Prod.snd) (c.2.result (P.reads pre)) := by
    rw [stages, hcmds, List.map_append, flow_append]
    rfl
  have hmem : (P.reads pre, c.2.result (P.reads pre)) ∈ (flow P.stages P.input).dropLast := by
    rw [hflow, List.dropLast_append_of_ne_nil (by simp), List.map_cons, flow]
    simp
  exact absurd (h _ hmem) (Nat.not_le.mpr hlt)

/-- A run that cannot go on has reached its last state in every case but one. -/
theorem final_of_stuck (h : P.Fits) (hs : Reachable (Step M) P.start s)
    (hstuck : Stuck (Step M) s) : P.Final s := by
  obtain ⟨m, n, hstate⟩ := State.of_reachable hs
  rcases hstate.progress with hfinal | ⟨s', hs'⟩ | hover
  · exact hfinal
  · exact absurd hs' (hstuck s')
  · exact absurd hover h.not_overflows

/-- Back at the prompt every stage has read and written what it should, and what
it wrote fitted its pipe. -/
theorem State.of_ret {m n : Nat} (h : P.State m n s) {sh' : Proc α}
    (hget : s.procs[0]? = some sh') (hret : sh'.code = .prog (.ret P.result)) :
    ∃ sh dn, P.Base P.commands s sh dn none ∧ P.Fits ∧
      s.written (.init P.stdout) = composed P.stages P.input := by
  have hshell : ∀ {pre : List (χ × Stage)} {sh : Proc α} {dn : List (Proc α)}
      {kid : Option (Proc α)}, P.Base pre s sh dn kid → sh.code = .prog (.ret P.result) := by
    intro pre sh dn kid hbase
    rw [hbase.shape.procs] at hget
    cases hget
    exact hret
  cases h with
  | head _ hbase _ _ hcode _ _ =>
      have := hshell hbase
      rw [hcode, List.map_cons, pipeLoop_cons] at this
      cases this
  | fork _ hbase _ _ hcode _ _ =>
      have := hshell hbase
      rw [hcode] at this
      cases this
  | @round _ _ _ _ _ _ _ _ _ l _ _ _ _ hbase _ _ hcode _ _ _ =>
      have := hshell hbase
      rw [hcode] at this
      cases l <;> cases this
  | finish hbase _ hcode _ =>
      have := hshell hbase
      rw [hcode] at this
      cases this
  | @final _ sh dn hbase hwithin _ hout => exact ⟨sh, dn, hbase, hwithin, hout⟩

/-- Some run cannot go on. -/
theorem exists_stuck_state (P : Pipeline M χ) :
    ∃ s, Reachable (Step M) P.start s ∧ Stuck (Step M) s ∧ ∃ m n, P.State m n s := by
  obtain ⟨n, hstart⟩ := State.start (P := P)
  have hwf : WellFounded (Prod.Lex (· < ·) (· < ·) : Nat × Nat → Nat × Nat → Prop) :=
    WellFounded.prod_lex Nat.lt_wfRel.wf Nat.lt_wfRel.wf
  have hstep : ∀ (r : Nat × Nat) (s s' : Sys W α), P.State r.1 r.2 s → Step M s s' →
      ∃ r' : Nat × Nat, Prod.Lex (· < ·) (· < ·) r' r ∧ P.State r'.1 r'.2 s' := by
    intro r s s' h hs
    obtain ⟨m', n', hlt, h'⟩ := h.step hs
    exact ⟨(m', n'), hlt, h'⟩
  obtain ⟨m, s, hreach, hstate, hstuck⟩ :=
    exists_stuck (I := fun r s => P.State r.1 r.2 s) hwf hstep (n := (_, n)) hstart
  exact ⟨s, hreach, hstuck, _, _, hstate⟩

end

/-- No reachable state of the pipeline is stuck but the last one, exactly when
every stage but the last writes no more than a pipe holds: the loop waits for
each stage before it forks the reader of its pipe. -/
theorem progress_iff (P : Pipeline M χ) :
    (∀ s, Reachable (Step M) P.start s → Stuck (Step M) s → P.Final s) ↔ P.Fits := by
  constructor
  · intro h
    obtain ⟨s, hreach, hstuck, m, n, hstate⟩ := P.exists_stuck_state
    obtain ⟨⟨sh, hget, hret⟩, -⟩ := h s hreach hstuck
    obtain ⟨-, -, -, hfits, -⟩ := hstate.of_ret hget hret
    exact hfits
  · exact fun h s hreach hstuck => final_of_stuck h hreach hstuck

end Pipeline

end UnixSys.Shell
