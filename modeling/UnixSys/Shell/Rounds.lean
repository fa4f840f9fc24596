import UnixSys.Shell.Branches
import UnixSys.Shell.Calls
import UnixSys.Shell.ReadLoop
import UnixSys.Shell.Stale
import UnixSys.Posix.Worlds

/-!
# Rounds — the rounds of the read loop

A round begins in the memory, the arrays and the file system that the round before it
left, and only if that round came back. `rounds` are those of the sequential run;
`Begins` says which can begin on any path of the program.
-/

namespace UnixSys.Shell

open Posix

/-! ## What a round leaves

Buffers and arrays have the right size, whatever the line was. -/

theorem storePaths_leaves {m : Mem} {ex : PtrArr} {j : Nat} {paths : List Str}
    {r : Mem × PtrArr × Nat} (h : storePaths m ex j paths = some r) :
    (∃ x, r.1 = m ++ x) ∧ r.2.1.length = ex.length := by
  induction paths generalizing m ex j with
  | nil =>
      cases h
      exact ⟨⟨[], (List.append_nil m).symm⟩, rfl⟩
  | cons path paths ih =>
      rw [storePaths_cons] at h
      by_cases hlt : j < ex.length
      · rw [PtrArr.store_of_lt hlt, Option.bind_some] at h
        obtain ⟨⟨x, hx⟩, hlen⟩ := ih h
        refine ⟨⟨[path ++ [NUL]] ++ x, ?_⟩, ?_⟩
        · rw [hx, List.append_assoc]
        · rw [hlen, List.length_set]
      · rw [PtrArr.store_of_ge (by omega), Option.bind_none] at h
        cases h

theorem expandWildcards_leaves (m : Mem) (argv ex : PtrArr) (j : Nat) :
    (expandWildcards m argv ex j).Obeys {} fun r =>
      (∃ x, r.1 = m ++ x) ∧ r.2.length = ex.length := by
  induction argv generalizing m ex j with
  | nil => trivial
  | cons p argv ih =>
      cases p with
      | undef => trivial
      | null =>
          rw [expandWildcards]
          by_cases hlt : j < ex.length
          · rw [PtrArr.store_of_lt hlt]
            exact ⟨⟨[], (List.append_nil m).symm⟩, List.length_set⟩
          · rw [PtrArr.store_of_ge (by omega)]
            trivial
      | «at» b o =>
          rw [expandWildcards]
          refine (Prog.Obeys.lift (P := fun _ => True) trivial fun _ _ => trivial).bind ?_
          intro pat _
          refine (Prog.obeys_trivial _).bind ?_
          intro found _
          refine (Prog.Obeys.lift trivial fun r hr => storePaths_leaves hr).bind ?_
          rintro ⟨m₁, ex₁, j₁⟩ ⟨⟨x, rfl⟩, hlen⟩
          refine (ih _ _ _).mono ?_
          rintro r ⟨⟨y, hy⟩, hlen'⟩
          refine ⟨⟨x ++ y, ?_⟩, ?_⟩
          · rw [hy, List.append_assoc]
          · rw [hlen']
            exact hlen

/-- The branch for redirections, whatever its scan finds. -/
theorem redirCase_leaves (m : Mem) (argv ex : PtrArr) (hex : ex.length = maxArg) :
    (redirCase m argv ex).Obeys {} fun l => Leaves m argv l () := by
  rw [redirCase]
  refine (Prog.obeys_trivial _).bind fun _ _ => ?_
  refine (Prog.obeys_trivial _).bind fun _ _ => ?_
  refine (Prog.obeys_trivial _).bind fun files _ => ?_
  refine (Prog.obeys_trivial _).bind fun _ _ => ?_
  refine (Prog.obeys_trivial _).bind fun _ _ => ?_
  refine (expandWildcards_leaves m files.2.2 ex 0).bind ?_
  rintro ⟨m', ex'⟩ ⟨hmem, hlen⟩
  refine (Prog.obeys_trivial _).bind fun _ _ => ?_
  refine (Prog.obeys_trivial _).bind fun _ _ => (Prog.obeys_trivial _).bind fun _ _ => ?_
  refine (Prog.obeys_trivial _).bind fun _ _ => (Prog.obeys_trivial _).bind fun _ _ => ?_
  refine (Prog.obeys_trivial _).bind fun _ _ => ?_
  exact ⟨hmem, rfl, hlen.trans hex⟩

theorem body_none {l : Locals} (hl : l.Ok) {chunk : Str} (h : command chunk = none) :
    body l chunk = .ub := by
  obtain ⟨line, backup, heap, hmem, -, -⟩ := hl.mem
  rw [body, hmem, readCommand_none h]
  rfl

theorem body_ok {l : Locals} (hl : l.Ok) {chunk : Str} (hlen : chunk.length < maxLine) :
    (body l chunk).Obeys {} Locals.Ok := by
  cases hs : command chunk with
  | none =>
      rw [body_none hl hs]
      trivial
  | some s =>
      by_cases hnamed : TakesRedir s → ¬ Dangling (tokens s)
      · have hrel := body_rel hl hlen hs hnamed
        exact (hrel.obeys (Prog.obeys_trivial _)).mono fun l h => h.elim fun _ hok => hok.1
      have ht : TakesRedir s := by
        by_contra ht
        exact hnamed fun h => absurd h ht
      rcases body_eq hl hlen hs with ⟨hroom, m, argv, hbody, hp⟩ | ⟨-, hbody⟩
      swap
      · rw [hbody]
        trivial
      obtain ⟨-, -, -, -, hnul, -⟩ := command_eq_some hs []
      obtain ⟨word, hword⟩ := ht.head
      rw [hbody, dispatch_redir_obeys hp hnul ht hword fun _ => trivial]
      refine (redirCase_leaves m argv l.expandedArgv hl.expandedArgv).mono ?_
      intro l' hleaves
      exact hleaves.roundOk hp.memOk (hp.argv_length hl hroom)

theorem readLoop_ok {hist : List Str} (hhist : ∀ chunk ∈ hist, chunk.length < maxLine)
    {l : Locals} (hl : l.Ok) : (readLoop hist l).Obeys {} Locals.Ok := by
  induction hist generalizing l with
  | nil => exact hl
  | cons chunk hist ih =>
      refine (body_ok hl (hhist chunk List.mem_cons_self)).bind ?_
      intro l' hl'
      exact ih (fun c hc => hhist c (List.mem_cons_of_mem chunk hc)) hl'

/-! ## Children -/

/-- The end of every child of the shell. -/
theorem execvp_neverReturns {α : Type} (args : Option (List Str)) : (do
    let args ← Prog.lift args
    execvp args
    printf execFailed
    exit 1 : Prog α).NeverReturns :=
  .bind _ fun _ => .bind _ fun _ => .bind _ fun _ => trivial

theorem execute_childrenEnd (m : Mem) (argv : PtrArr) : (execute m argv).ChildrenEnd :=
  ⟨execvp_neverReturns _, fun _ => trivial, fun _ => trivial⟩

theorem redirTo_childrenEnd (m : Mem) (redirection : Str) (p : Ptr) :
    (redirTo m redirection p).ChildrenEnd := by
  have hset : ∀ (file : Str) (fd new : Int), (if fd < 0 then perror file
      else do dup2 fd new; close fd).ChildrenEnd := by
    intro file fd new
    split
    · exact fun _ => trivial
    · exact fun _ _ => trivial
  have hfile : ∀ file, (fileRedir redirection file).ChildrenEnd := by
    intro file
    rw [fileRedir]
    split
    · exact fun fd => hset file fd 0
    · split
      · exact fun fd => hset file fd 1
      · trivial
  have hsome : (Prog.lift (m.str p) >>= fileRedir redirection).ChildrenEnd := by
    cases m.str p with
    | none => trivial
    | some file => exact hfile file
  cases p with
  | null => trivial
  | undef => exact hsome
  | «at» b o => exact hsome

theorem redirCase_childrenEnd (m : Mem) (argv ex : PtrArr) : (redirCase m argv ex).ChildrenEnd := by
  intro originalStdin originalStdout
  show (Prog.lift (redirScan m argv .null .null []) >>= _).ChildrenEnd
  cases redirScan m argv .null .null [] with
  | none => trivial
  | some files =>
      refine (redirTo_childrenEnd m _ files.1).bind fun _ => ?_
      refine (redirTo_childrenEnd m _ files.2.1).bind fun _ => ?_
      refine expandWildcards_rule (P := Prog.ChildrenEnd) trivial (fun _ _ h => h) ?_ _ _ _ _
      intro r
      exact (execute_childrenEnd r.1 r.2).bind fun _ _ _ _ _ _ => trivial

theorem pipeLoop_childrenEnd (m : Mem) (argv ex : PtrArr) {done : Prog Locals}
    (hdone : done.ChildrenEnd) (commands : List Ptr) (i : Nat) (pfd prevPfd : Int × Int) :
    (pipeLoop (pipeStage m argv ex) done commands i pfd prevPfd).ChildrenEnd := by
  have hstage : ∀ p, (pipeStage m argv ex p : Prog Locals).NeverReturns := by
    intro p
    cases p with
    | null => trivial
    | undef => trivial
    | «at» b o =>
        exact .bind _ fun parsed => .bind _ fun r => execvp_neverReturns (r.1.args parsed.2)
  have hclose : ∀ (i : Nat) (prevPfd : Int × Int), (closePrev i prevPfd).ChildrenEnd := by
    intro i prevPfd
    rw [closePrev]
    split
    · exact fun _ _ => trivial
    · trivial
  have hpipe : ∀ (last : Bool) (pfd : Int × Int), (newPipe last pfd).ChildrenEnd := by
    intro last pfd
    cases last with
    | true => trivial
    | false =>
        intro r
        cases r with
        | none => exact fun _ => trivial
        | some pfd => trivial
  induction commands generalizing i pfd prevPfd with
  | nil => exact hdone
  | cons p rest ih =>
      rw [pipeLoop]
      refine (hpipe _ _).bind fun pfd => ⟨?_, fun _ => trivial, fun pid => ?_⟩
      · show (redirectStdin i prevPfd >>= _).NeverReturns
        exact .bind _ fun _ => .bind _ fun _ => hstage p
      · exact (hclose i prevPfd).bind fun _ => ih _ _ _

theorem childrenEnd_inherited : Inherited fun p => p.ChildrenEnd where
  ret := fun _ => trivial
  ub := trivial
  exit := fun _ => trivial
  bind := Prog.ChildrenEnd.bind
  printf := fun _ _ => trivial
  strcasecmp := fun _ _ _ => trivial
  glob := fun _ _ => trivial
  execute := execute_childrenEnd
  redirCase := redirCase_childrenEnd
  pipeLoop := fun m argv ex _ commands hdone =>
    pipeLoop_childrenEnd m argv ex hdone commands 0 _ _

theorem body_childrenEnd (l : Locals) (chunk : Str) : (body l chunk).ChildrenEnd :=
  childrenEnd_inherited.body l chunk

/-- A round that leaves the loop does not come back to it. -/
theorem body_exits {l : Locals} (hl : l.Ok) {chunk : Str} (hlen : chunk.length < maxLine)
    (h : exits chunk = true) : (body l chunk).NeverReturns := by
  cases hs : command chunk with
  | none =>
      rw [exits, hs] at h
      cases h
  | some s =>
      rw [exits, hs, Option.any_some, isExit] at h
      cases hword : (tokens s).head? with
      | none =>
          rw [hword] at h
          cases h
      | some word =>
          rw [hword, Option.any_some] at h
          have hrel := body_rel hl hlen hs fun ht _ => by
            rw [ht.2 word hword "exit".toList (by simp [builtins])] at h
            cases h
          have hline : (runLine s).NeverReturns := by
            rw [runLine]
            split
            · rw [hword, Prog.NeverReturns, Prog.obeys_bind, strcasecmp_obeys trivial, if_pos h]
              trivial
            · trivial
          refine (hrel.obeys hline).mono ?_
          rintro _ ⟨_, _, hno⟩
          exact hno

/-! ## The rounds of a run -/

/-- A round of the loop: the bytes that `fgets` stored, those of its later calls, and
what the round begins with. -/
structure LoopRound (W : Type) where
  chunk : Str
  rest : List Str
  locals : Locals
  ctx : Ctx W

section
variable {W : Type} {env : Env W}

def LoopRound.run (env : Env W) (r : LoopRound W) : Run W Locals :=
  (body r.locals r.chunk).run env r.ctx

/-- The rounds that begin in the sequential run of the loop. -/
def rounds (env : Env W) : List Str → Locals → Ctx W → List (LoopRound W)
  | [], _, _ => []
  | chunk :: rest, l, x =>
      let r := (body l chunk).run env x
      ⟨chunk, rest, l, x⟩ ::
        match r.outcome with
        | .ret l' => rounds env rest l' r.ctx
        | _ => []

variable {chunk : Str} {rest : List Str} {l : Locals} {x : Ctx W}

theorem rounds_returned {l' : Locals} (h : ((body l chunk).run env x).outcome = .ret l') :
    rounds env (chunk :: rest) l x =
      ⟨chunk, rest, l, x⟩ :: rounds env rest l' ((body l chunk).run env x).ctx := by
  rw [rounds, h]

theorem rounds_stopped (h : ¬ ((body l chunk).run env x).Returns) :
    rounds env (chunk :: rest) l x = [⟨chunk, rest, l, x⟩] := by
  rw [rounds]
  cases hout : ((body l chunk).run env x).outcome with
  | ret l' => exact absurd ⟨l', hout⟩ h
  | _ => rfl

/-- The loop does what its rounds do, and ends as the last of them. -/
theorem readLoop_rounds (cs : List Str) (l : Locals) (x : Ctx W) :
    ((readLoop cs l).run env x).log = (rounds env cs l x).flatMap (fun r => (r.run env).log) ∧
      ((readLoop cs l).run env x).outcome =
        ((rounds env cs l x).getLast?.map fun r => (r.run env).outcome).getD (.ret l) := by
  induction cs generalizing l x with
  | nil => exact ⟨rfl, rfl⟩
  | cons chunk rest ih =>
      -- no child of the round returns to the loop, so the loop goes on where the round ends
      rw [readLoop, (body_childrenEnd l chunk).run_bind, Run.bind]
      cases hout : ((body l chunk).run env x).outcome with
      | ret l' =>
          obtain ⟨hlog, houtcome⟩ := ih l' ((body l chunk).run env x).ctx
          rw [rounds_returned hout]
          refine ⟨?_, ?_⟩
          · rw [Run.log_prepend, hlog, List.flatMap_cons]
            rfl
          · rw [Run.outcome_prepend, houtcome, List.getLast?_cons]
            cases (rounds env rest l' ((body l chunk).run env x).ctx).getLast? with
            | none => exact hout.symm
            | some r => rfl
      | exited n =>
          rw [rounds_stopped (by simp [Run.Returns, hout])]
          exact ⟨(List.append_nil _).symm, hout.symm⟩
      | execed =>
          rw [rounds_stopped (by simp [Run.Returns, hout])]
          exact ⟨(List.append_nil _).symm, hout.symm⟩
      | ub =>
          rw [rounds_stopped (by simp [Run.Returns, hout])]
          exact ⟨(List.append_nil _).symm, hout.symm⟩

/-! ## The rounds on all paths -/

/-- On some path of the loop a round begins with this chunk, in this state and this
file system. -/
inductive Begins (env : Env W) : List Str → Locals → W → Str → Locals → W → Prop
  | first {chunk : Str} {rest : List Str} {l : Locals} {w : W} :
      Begins env (chunk :: rest) l w chunk l w
  | next {chunk chunk' : Str} {rest : List Str} {l l' l'' : Locals} {w w' w'' : W} :
      (body l chunk).Gets env w l' w' → Begins env rest l' w' chunk' l'' w'' →
      Begins env (chunk :: rest) l w chunk' l'' w''

/-- The loop keeps to a policy when all of its rounds do. -/
theorem readLoop_keeps {π : Policy} {cs : List Str} {l : Locals} {w : W}
    (h : ∀ chunk l' w', Begins env cs l w chunk l' w' → (body l' chunk).Keeps env π w') :
    (readLoop cs l).Keeps env π w := by
  induction cs generalizing l w with
  | nil => trivial
  | cons chunk rest ih =>
      refine (body_childrenEnd l chunk).keeps_bind (h chunk l w .first) fun l' w' hgets => ?_
      exact ih fun chunk' l'' w'' hbegins => h chunk' l'' w'' (.next hgets hbegins)

/-- The rounds of the run are among them. -/
theorem begins_of_mem_rounds {cs : List Str} {r : LoopRound W} (h : r ∈ rounds env cs l x) :
    Begins env cs l x.world r.chunk r.locals r.ctx.world := by
  induction cs generalizing l x with
  | nil => cases h
  | cons chunk rest ih =>
      by_cases hret : ((body l chunk).run env x).Returns
      · obtain ⟨l', hout⟩ := hret
        rw [rounds_returned hout] at h
        rcases List.mem_cons.mp h with rfl | h
        · exact .first
        · exact .next (Prog.gets_of_run hout) (ih h)
      · rw [rounds_stopped hret, List.mem_singleton] at h
        subst h
        exact .first

/-- A round begins with buffers and arrays of the right size, and after no `exit`. -/
theorem Begins.ok {cs : List Str} {l l' : Locals} {w w' : W} {chunk : Str}
    (h : Begins env cs l w chunk l' w') (hl : l.Ok) (hcs : ∀ c ∈ cs, c.length < maxLine) :
    l'.Ok ∧ chunk ∈ upTo exits cs := by
  induction h with
  | first => exact ⟨hl, List.mem_cons_self⟩
  | next hgets _ ih =>
      obtain ⟨hlen, hrest⟩ := List.forall_mem_cons.mp hcs
      obtain ⟨hok, hmem⟩ := ih ((body_ok hl hlen).of_gets hgets) hrest
      refine ⟨hok, ?_⟩
      rw [upTo, if_neg fun hexit => ((body_exits hl hlen hexit).of_gets hgets).elim]
      exact List.mem_cons_of_mem _ hmem

end

end UnixSys.Shell
