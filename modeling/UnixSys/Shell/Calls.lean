import UnixSys.Shell.Refine
import UnixSys.Posix.Policy

/-!
# Calls — what the branches ask of the system

The rules by which the programs of `UnixSys.Shell.Meaning` keep to a policy. A
policy suits a property `K` of word lists when `K` is enough to execute a list,
and the expansion of words keeps it.
-/

namespace UnixSys.Shell

open Posix

/-- The calls that every branch may make. -/
def ordinary : Call → Bool
  | .strcasecmp _ _ | .openFile _ _ | .dup _ => false
  | .printf _ | .perror _ | .glob _ | .dup2 _ _ | .close _ | .pipe => true

structure Suits (π : Policy) (K : List Str → Prop) : Prop where
  crash : π.mayCrash
  call : ∀ c, ordinary c = true → π.mayCall c
  exec : ∀ args, K args → π.mayExec args
  expand : ∀ acc word ws r, (Call.glob word).Valid r → K (acc ++ word :: ws) →
    K (acc ++ r.getD [word] ++ ws)

section
variable {π : Policy} {K : List Str → Prop} (hπ : Suits π K)
include hπ

theorem printf_obeys (t : Str) : (printf t).Obeys π fun _ => True :=
  ⟨hπ.call _ rfl, fun _ _ => trivial⟩

theorem expandWords_obeys {ws acc : List Str} (h : K (acc ++ ws)) :
    (expandWords ws acc).Obeys π K := by
  induction ws generalizing acc with
  | nil =>
      rw [List.append_nil] at h
      rw [expandWords]
      split
      · exact h
      · exact hπ.crash
  | cons word ws ih =>
      rw [expandWords]
      refine ⟨hπ.call _ rfl, fun r hr => ?_⟩
      show Prog.Obeys π K (if _ then _ else _)
      split
      · apply ih
        exact hπ.expand acc word ws r hr h
      · exact hπ.crash

theorem runCommand_obeys {args : List Str} (h : K args) :
    (runCommand args).Obeys π fun _ => True := by
  intro r
  cases r with
  | failed => exact ⟨hπ.call _ rfl, fun _ _ => trivial⟩
  | child => exact ⟨hπ.exec _ h, hπ.call _ rfl, fun _ _ => trivial⟩
  | parent pid => trivial

theorem runWords_obeys {ws : List Str} (h : K ws) : (runWords ws).Obeys π fun _ => True := by
  have hexpand : (expandWords ws []).Obeys π K := expandWords_obeys hπ h
  exact hexpand.bind fun _ hargs => runCommand_obeys hπ hargs

theorem runFields_obeys {fs : List Str} (hfs : ∀ f ∈ fs, K (tokens (trimmed f))) :
    (runFields fs).Obeys π fun _ => True := by
  induction fs with
  | nil => trivial
  | cons f fs ih =>
      have hfield : (runField f).Obeys π fun _ => True := by
        rw [runField]
        split
        · exact runWords_obeys hπ (hfs f List.mem_cons_self)
        · exact hπ.crash
      exact hfield.bind fun _ _ => ih fun g hg => hfs g (List.mem_cons_of_mem f hg)

theorem runStage_obeys {c : Str} (h : K (tokens c)) : (runStage c).Obeys π fun _ => True := by
  rw [runStage]
  split
  · have hexpand : (expandWords (tokens c) []).Obeys π K := expandWords_obeys hπ h
    refine hexpand.bind fun _ _ => ?_
    exact ⟨hπ.exec _ h, hπ.call _ rfl, fun _ _ => trivial⟩
  · exact hπ.crash

theorem pipeLoop_obeys {χ : Type} {stage : χ → Prog Unit} {done : Prog Unit} {cs : List χ}
    (hstage : ∀ c ∈ cs, (stage c).Obeys π fun _ => True) (hdone : done.Obeys π fun _ => True)
    (i : Nat) (pfd prevPfd : Int × Int) :
    (pipeLoop stage done cs i pfd prevPfd).Obeys π fun _ => True := by
  have hclose : ∀ fd, (close fd).Obeys π fun _ => True :=
    fun fd => ⟨hπ.call _ rfl, fun _ _ => trivial⟩
  have hdup2 : ∀ old new, (dup2 old new).Obeys π fun _ => True :=
    fun old new => ⟨hπ.call _ rfl, fun _ _ => trivial⟩
  induction cs generalizing i pfd prevPfd with
  | nil => exact hdone
  | cons c rest ih =>
      have hpipe : (newPipe rest.isEmpty pfd).Obeys π fun _ => True := by
        rw [newPipe]
        split
        · trivial
        · refine ⟨hπ.call _ rfl, fun r _ => ?_⟩
          cases r with
          | none => exact ⟨hπ.call _ rfl, fun _ _ => trivial⟩
          | some pfd => trivial
      have hstdin : (redirectStdin i prevPfd).Obeys π fun _ => True := by
        rw [redirectStdin]
        split
        · exact (hclose _).bind fun _ _ => (hdup2 _ _).bind fun _ _ => hclose _
        · trivial
      have hstdout : ∀ pfd, (redirectStdout rest.isEmpty pfd).Obeys π fun _ => True := by
        intro pfd
        rw [redirectStdout]
        split
        · trivial
        · exact (hclose _).bind fun _ _ => (hdup2 _ _).bind fun _ _ => hclose _
      have hprev : (closePrev i prevPfd).Obeys π fun _ => True := by
        rw [closePrev]
        split
        · exact (hclose _).bind fun _ _ => hclose _
        · trivial
      rw [pipeLoop]
      refine hpipe.bind fun pfd _ => ?_
      intro r
      cases r with
      | failed => exact ⟨hπ.call _ rfl, fun _ _ => trivial⟩
      | child =>
          exact hstdin.bind fun _ _ => (hstdout _).bind fun _ _ => hstage c List.mem_cons_self
      | parent pid =>
          exact hprev.bind fun _ _ => ih (fun d hd => hstage d (List.mem_cons_of_mem c hd)) _ _ _

theorem runPipeline_obeys {cs : List Str} (hcs : ∀ c ∈ cs, K (tokens c)) :
    (runPipeline cs).Obeys π fun _ => True := by
  rw [runPipeline]
  split
  · exact pipeLoop_obeys hπ (fun c hc => runStage_obeys hπ (hcs c hc)) (printf_obeys hπ prompt) 0
      _ _
  · exact hπ.crash

/-- The branches of `main` below the builtins, but for the redirections. -/
theorem runPlain_obeys {s : Str} (hredir : (s.contains '<' || s.contains '>') = false)
    (hline : K (tokens s))
    (hseq : s.contains ';' = true → ∀ f ∈ fields ';' s, K (tokens (trimmed f)))
    (hpipe : s.contains ';' = false → s.contains '|' = true →
      ∀ f ∈ fields '|' s, K (tokens (trimmed f))) :
    (runPlain s).Obeys π fun _ => True := by
  rw [runPlain, hredir, if_neg Bool.false_ne_true]
  split
  · rename_i hin
    exact (runFields_obeys hπ (hseq hin)).bind fun _ _ => printf_obeys hπ prompt
  · rename_i hout
    rw [Bool.not_eq_true] at hout
    split
    · rename_i hin
      refine runPipeline_obeys hπ fun c hc => ?_
      obtain ⟨f, hf, rfl⟩ := List.mem_map.mp hc
      exact hpipe hout hin f hf
    · exact (runWords_obeys hπ hline).bind fun _ _ => printf_obeys hπ prompt

/-- The cascade: the tests for the builtins, and what follows them. -/
theorem runLine_obeys {s : Str}
    (hcmp : ∀ b, π.mayCall (.strcasecmp (tokens s).head? b))
    (hlistall : K ["ls".toList, "-la".toList])
    (hcompile : ∀ ws, K ("gcc".toList :: ws))
    (hplain : External s → (runPlain s).Obeys π fun _ => True) :
    (runLine s).Obeys π fun _ => True := by
  rw [runLine]
  split
  swap
  · exact hπ.crash
  refine ⟨hcmp _, fun isExit hexit => ?_⟩
  cases isExit with
  | true => trivial
  | false =>
  refine ⟨hcmp _, fun isListall hls => ?_⟩
  cases isListall with
  | true =>
      have hrun := runCommand_obeys hπ hlistall
      exact hrun.bind fun _ _ => printf_obeys hπ prompt
  | false =>
  refine ⟨hcmp _, fun isCompile hgcc => ?_⟩
  cases isCompile with
  | true =>
      show Prog.Obeys π _ (runCompile (tokens s))
      rw [runCompile.eq_def]
      split
      · exact (runWords_obeys hπ (hcompile _)).bind fun _ _ => printf_obeys hπ prompt
      · exact hπ.crash
  | false =>
      apply hplain
      cases hhead : (tokens s).head? with
      | none =>
          rw [hhead] at hexit
          cases hexit
      | some word =>
          rw [hhead] at hexit hls hgcc
          exact ⟨word, hhead, forall_builtins.mpr
            ⟨Option.some.inj hexit, Option.some.inj hls, Option.some.inj hgcc⟩⟩

end

/-! ## The way to the redirections -/

section
variable {π : Policy}

/-- A test for a builtin has one answer. -/
theorem strcasecmp_obeys {word t : Str} {Q : Bool → Prop}
    (hcall : π.mayCall (.strcasecmp (some word) t)) :
    (strcasecmp (some word) t).Obeys π Q ↔ Q (eqIgnoreCase word t) := by
  constructor
  · intro h
    exact h.2 _ rfl
  · intro h
    refine ⟨hcall, fun r hr => ?_⟩
    rw [← Option.some.inj hr]
    exact h

/-- Of a line that takes the branch for redirections only that branch matters. -/
theorem dispatch_redir_obeys {chunk s word : Str} {l : Locals} {m : Mem} {argv : PtrArr}
    {Q : Locals → Prop} (hp : Parsed chunk s l m argv) (hs : NUL ∉ s) (ht : TakesRedir s)
    (hword : (tokens s).head? = some word)
    (hcall : ∀ b, π.mayCall (.strcasecmp (some word) b)) (ex : PtrArr) :
    (dispatch m argv ex).Obeys π Q ↔ (redirCase m argv ex).Obeys π Q := by
  have hb : ∀ b ∈ builtins, eqIgnoreCase word b = false := ht.2 word hword
  rw [dispatch, arg0_eq hp.args, hp.backup hs, hword]
  simp only [Prog.lift_some, Prog.ret_bind]
  rw [Prog.obeys_bind, strcasecmp_obeys (hcall _), hb _ (by simp [builtins]),
    if_neg Bool.false_ne_true, Prog.obeys_bind, strcasecmp_obeys (hcall _),
    hb _ (by simp [builtins]), if_neg Bool.false_ne_true, Prog.obeys_bind,
    strcasecmp_obeys (hcall _), hb _ (by simp [builtins]),
    if_neg Bool.false_ne_true, if_pos ht.1]

end

end UnixSys.Shell
