import UnixSys.Shell.Source

/-!
# Branches — what a round of the read loop is composed of

Apart from its calls, a round is composed of `execute`, the redirection branch and
the pipe loop. A property of programs that these have, and that composition keeps, is
a property of every round, whatever the memory holds and the line says.
-/

namespace UnixSys.Shell

open Posix

/-- A property of programs that a round inherits from its parts. -/
structure Inherited (P : ∀ {α : Type}, Prog α → Prop) : Prop where
  ret : ∀ {α : Type} (a : α), P (.ret a)
  ub : ∀ {α : Type}, P (.ub : Prog α)
  exit : ∀ {α : Type} (n : Nat), P (.exit n : Prog α)
  bind : ∀ {α β : Type} {p : Prog α} {f : α → Prog β}, P p → (∀ a, P (f a)) → P (p >>= f)
  printf : ∀ t, P (printf t)
  strcasecmp : ∀ s t, P (strcasecmp s t)
  glob : ∀ pat, P (glob pat)
  execute : ∀ m argv, P (execute m argv)
  redirCase : ∀ m argv ex, P (redirCase m argv ex)
  pipeLoop : ∀ m argv ex (done : Prog Locals) commands, P done →
    P (pipeLoop (pipeStage m argv ex) done commands 0 (-1, -1) (-1, -1))

/-- `expand_wildcards` only calls `glob`. -/
theorem expandWildcards_rule {α : Type} {P : Prog α → Prop} (hub : P .ub)
    (hglob : ∀ pat k, (∀ r, P (k r)) → P (.call (.glob pat) k)) {f : Mem × PtrArr → Prog α}
    (hf : ∀ r, P (f r)) (m : Mem) (argv ex : PtrArr) (j : Nat) :
    P (expandWildcards m argv ex j >>= f) := by
  induction argv generalizing m ex j with
  | nil => exact hub
  | cons p argv ih =>
      cases p with
      | undef => exact hub
      | null =>
          rw [expandWildcards]
          cases PtrArr.store ex j .null with
          | none => exact hub
          | some ex => exact hf _
      | «at» b o =>
          rw [expandWildcards]
          cases m.cstr b o with
          | none => exact hub
          | some pat =>
              refine hglob pat _ ?_
              intro r
              show P (Prog.lift (storePaths m ex j (r.getD [pat])) >>= _ >>= f)
              cases storePaths m ex j (r.getD [pat]) with
              | none => exact hub
              | some out => exact ih out.1 out.2.1 out.2.2

namespace Inherited

variable {P : ∀ {α : Type}, Prog α → Prop} (h : Inherited P)
include h

theorem lift {α : Type} (a : Option α) : P (Prog.lift a) := by
  cases a with
  | none => exact h.ub
  | some a => exact h.ret a

theorem expandWildcards (m : Mem) (argv ex : PtrArr) (j : Nat) :
    P (expandWildcards m argv ex j) := by
  induction argv generalizing m ex j with
  | nil => exact h.ub
  | cons p argv ih =>
      cases p with
      | undef => exact h.ub
      | null => exact h.bind (h.lift _) fun _ => h.ret _
      | «at» b o =>
          refine h.bind (h.lift _) fun pat => ?_
          refine h.bind (h.glob _) fun r => ?_
          exact h.bind (h.lift _) fun out => ih _ _ _

/-- Every branch ends in the prompt. -/
theorem prompt (l : Locals) : P (do Posix.printf prompt; pure l) :=
  h.bind (h.printf _) fun _ => h.ret l

/-- `expand_wildcards`, `execute` and the prompt. -/
theorem run (m : Mem) (argv ex : PtrArr) (l : Mem → PtrArr → Locals) : P (do
    let (m, ex) ← Shell.expandWildcards m argv ex 0
    Shell.execute m ex
    Posix.printf Shell.prompt
    pure (l m ex)) :=
  h.bind (h.expandWildcards m argv ex 0) fun r => h.bind (h.execute r.1 r.2) fun _ => h.prompt _

theorem seqLoop (fuel : Nat) (l : Locals) (saved : Nat) : P (seqLoop fuel l saved) := by
  induction fuel generalizing l saved with
  | zero => exact h.ub
  | succ fuel ih =>
      refine h.bind (h.lift _) ?_
      rintro ⟨m, tok⟩
      cases tok with
      | none => exact h.ret _
      | some tok =>
          refine h.bind (h.lift _) fun command => ?_
          refine h.bind (h.lift _) fun parsed => ?_
          refine h.bind (h.expandWildcards parsed.1 parsed.2 _ 0) fun r => ?_
          exact h.bind (h.execute r.1 r.2) fun _ => ih _ _

theorem dispatch (m : Mem) (argv ex : PtrArr) : P (dispatch m argv ex) := by
  refine h.bind (h.lift _) fun cmd => h.bind (h.lift _) fun backup => ?_
  refine h.bind (h.strcasecmp _ _) fun hexit => ?_
  split
  · exact h.exit 0
  refine h.bind (h.strcasecmp _ _) fun hlistall => ?_
  split
  · refine h.bind (h.lift _) fun _ => h.bind (h.lift _) fun _ => ?_
    refine h.bind (h.lift _) fun _ => ?_
    exact h.bind (h.execute _ _) fun _ => h.prompt _
  refine h.bind (h.strcasecmp _ _) fun hcompile => ?_
  split
  · refine h.bind (h.lift _) fun _ => h.bind (h.lift _) fun _ => ?_
    refine h.bind (h.lift _) fun _ => h.bind (h.lift _) fun _ => ?_
    exact h.bind (h.lift _) fun _ => h.run _ _ _ fun m ex => ⟨m, _, ex⟩
  split
  · exact h.redirCase m argv ex
  split
  · exact h.bind (h.seqLoop _ _ _) fun _ => h.prompt _
  split
  · exact h.bind (h.lift _) fun _ => h.pipeLoop _ _ _ _ _ (h.prompt _)
  · exact h.run m argv ex fun m ex => ⟨m, argv, ex⟩

theorem body (l : Locals) (chunk : Str) : P (body l chunk) :=
  h.bind (h.lift _) fun _ => h.bind (h.lift _) fun _ =>
    h.bind (h.lift _) fun _ => h.dispatch _ _ _

theorem readLoop (input : List Str) (l : Locals) : P (readLoop input l) := by
  induction input generalizing l with
  | nil => exact h.ret l
  | cons chunk rest ih => exact h.bind (h.body l chunk) ih

end Inherited

end UnixSys.Shell
