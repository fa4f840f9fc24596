import UnixSys.Posix.Worlds
import UnixSys.Shell.Effects
import UnixSys.Shell.Refine
import UnixSys.Shell.Calls

/-!
# Selection — which lines take the branch for redirections

`main` looks for the bytes `<` and `>` anywhere in the line; the scan in the
branch compares whole tokens with them. `selects_iff` says for which lines the
two agree.
-/

namespace UnixSys.Shell

open Posix

/-- The round has entered the branch for redirections: no other code calls `dup`. -/
def EntersRedir {W α : Type} (r : Run W α) : Prop := ∃ fd res, Event.call (.dup fd) res ∈ r.log

def neverDups : Policy where
  mayCall
    | .dup _ => False
    | _ => True

theorem neverDups_suits : Suits neverDups fun _ => True where
  crash := trivial
  call c hc := by
    cases c with
    | dup fd => cases hc
    | _ => trivial
  exec _ _ := trivial
  expand _ _ _ _ _ _ := trivial

section
variable {W : Type} {chunk s : Str} {l : Locals}

theorem not_entersRedir {α : Type} {p : Prog α} {Q : α → Prop} (hp : p.Obeys neverDups Q)
    (env : Env W) (x : Ctx W) : ¬ EntersRedir (p.run env x) := by
  rintro ⟨fd, res, hfd⟩
  exact (hp.keeps_all x.world).run _ hfd

theorem redirCase_enters (m : Mem) (argv ex : PtrArr) (env : Env W) (x : Ctx W) :
    EntersRedir ((redirCase m argv ex).run env x) := by
  rw [redirCase]
  simp only [dup, Prog.call_bind, Prog.ret_bind, Prog.run, Call.apply]
  cases x.fds.get 0 with
  | none => exact ⟨0, _, List.mem_cons_self⟩
  | some o => exact ⟨0, _, List.mem_cons_self⟩

/-- Below the builtins the branch is entered for every `<` and `>` in the line. -/
theorem entersRedir_iff (hl : l.Ok) (hlen : chunk.length < maxLine)
    (hs : command chunk = some s) (hext : External s) (hroom : (tokens s).length < maxArg)
    (env : Env W) (x : Ctx W) :
    EntersRedir ((body l chunk).run env x) ↔ (s.contains '<' || s.contains '>') = true := by
  obtain ⟨-, -, -, -, hnul, -⟩ := command_eq_some hs []
  constructor
  · intro henters
    by_contra hno
    rw [Bool.not_eq_true] at hno
    have hplain : (runLine s).Obeys neverDups fun _ => True :=
      runLine_obeys neverDups_suits (fun _ => trivial) trivial (fun _ => trivial) fun _ =>
        runPlain_obeys neverDups_suits hno trivial (fun _ _ _ => trivial)
          fun _ _ _ _ => trivial
    have hrel := body_rel hl hlen hs fun ht => absurd ht.1 (by rw [hno]; exact Bool.false_ne_true)
    exact not_entersRedir (hrel.obeys hplain) env x henters
  · intro hredir
    rcases body_eq hl hlen hs with ⟨-, m, argv, hbody, hp⟩ | ⟨hge, -⟩
    swap
    · omega
    obtain ⟨word, hword, hb⟩ := hext
    have hexit := hb "exit".toList (by simp [builtins])
    have hlistall := hb "listall".toList (by simp [builtins])
    have hcompile := hb "compile".toList (by simp [builtins])
    obtain ⟨fd, res, hfd⟩ := redirCase_enters m argv l.expandedArgv env x
    refine ⟨fd, res, ?_⟩
    -- the three tests fail, and then the branch is next
    rw [hbody, dispatch, arg0_eq hp.args, hp.backup hnul, hword]
    simp only [strcasecmp, Prog.lift_some, Prog.ret_bind, Prog.call_bind, Prog.run, Call.apply,
      Run.log_prepend, hexit, hlistall, hcompile, Bool.false_eq_true, if_false, hredir, if_true]
    exact List.mem_append_right _ (List.mem_append_right _ (List.mem_append_right _ hfd))

theorem operator_tokens_iff (s : Str) : (∃ word ∈ tokens s, isOperator word = true) ↔
    ∃ word ∈ words s, isOperator word = true := by
  constructor
  · rintro ⟨word, hword, hop⟩
    rcases List.mem_append.mp hword with h | h
    · exact ⟨word, h, hop⟩
    · split at h
      · rw [List.mem_singleton.mp h] at hop
        cases hop
      · cases h
  · rintro ⟨word, hword, hop⟩
    exact ⟨word, List.mem_append_left _ hword, hop⟩

theorem contains_of_operator {s word : Str} (hword : word ∈ words s)
    (hop : isOperator word = true) : (s.contains '<' || s.contains '>') = true := by
  have hmem : ∀ b ∈ word, b ∈ s := fun b hb =>
    mem_of_mem_tokens (List.mem_append_left _ hword) hb
  rw [isOperator_iff] at hop
  rw [Bool.or_eq_true, List.contains_iff_mem, List.contains_iff_mem]
  rcases hop with rfl | rfl
  · exact .inl (hmem '<' (by simp))
  · exact .inr (hmem '>' (by simp))

theorem contains_eq_false_iff (s : Str) : (s.contains '<' || s.contains '>') = false ↔
    ∀ word ∈ words s, '<' ∉ word ∧ '>' ∉ word := by
  rw [Bool.or_eq_false_iff, List.contains_eq_mem, List.contains_eq_mem,
    decide_eq_false_iff_not, decide_eq_false_iff_not]
  constructor
  · rintro ⟨hlt, hgt⟩ word hword
    have hmem : ∀ b ∈ word, b ∈ s := fun b hb =>
      mem_of_mem_tokens (List.mem_append_left _ hword) hb
    exact ⟨fun h => hlt (hmem _ h), fun h => hgt (hmem _ h)⟩
  · intro h
    refine ⟨fun hlt => ?_, fun hgt => ?_⟩
    · obtain ⟨word, hword, hin⟩ := exists_word_of_mem hlt (by decide)
      exact (h word hword).1 hin
    · obtain ⟨word, hword, hin⟩ := exists_word_of_mem hgt (by decide)
      exact (h word hword).2 hin

/-- The round comes to the cascade, with the tokens of the line in `argv` and its copy
in `line_backup`. -/
def ComesToCascade (l : Locals) (chunk s : Str) : Prop :=
  ∃ m argv, body l chunk = dispatch m argv l.expandedArgv ∧ m.args argv = some (tokens s) ∧
    m.cstr backupBlk 0 = some s

theorem comesToCascade_iff (hl : l.Ok) (hlen : chunk.length < maxLine)
    (hs : command chunk = some s) : ComesToCascade l chunk s ↔ (tokens s).length < maxArg := by
  obtain ⟨-, -, -, -, hnul, -⟩ := command_eq_some hs []
  rcases body_eq hl hlen hs with ⟨hroom, m, argv, hbody, hp⟩ | ⟨hge, hbody⟩
  · exact ⟨fun _ => hroom, fun _ => ⟨m, argv, hbody, hp.args, hp.backup hnul⟩⟩
  · -- the tokens overflow `argv`
    refine iff_of_false ?_ (Nat.not_lt.mpr hge)
    intro h
    obtain ⟨m, argv, heq, hargs, hbackup⟩ := h
    rw [hbody, dispatch, arg0_eq hargs, hbackup] at heq
    cases heq

/-- The round comes to the cascade, and enters the branch for the lines with an
operator among their tokens, exactly when there is room for the tokens, and no
longer word has a `<` or `>` in it, unless an operator is there as well. -/
theorem selects_iff (hl : l.Ok) (hlen : chunk.length < maxLine) (hs : command chunk = some s)
    (hext : External s) (env : Env W) (x : Ctx W) :
    (ComesToCascade l chunk s ∧
      (EntersRedir ((body l chunk).run env x) ↔ ∃ word ∈ tokens s, isOperator word = true)) ↔
    (tokens s).length < maxArg ∧ ((∃ word ∈ words s, isOperator word = true) ∨
      ∀ word ∈ words s, '<' ∉ word ∧ '>' ∉ word) := by
  rw [comesToCascade_iff hl hlen hs, operator_tokens_iff, ← contains_eq_false_iff]
  refine and_congr_right fun hroom => ?_
  rw [entersRedir_iff hl hlen hs hext hroom]
  constructor
  · intro hagree
    cases hin : (s.contains '<' || s.contains '>') with
    | false => exact .inr rfl
    | true => exact .inl (hagree.mp hin)
  · intro h
    rcases h with ⟨word, hword, hop⟩ | hno
    · exact ⟨fun _ => ⟨word, hword, hop⟩, fun _ => contains_of_operator hword hop⟩
    · rw [hno]
      refine ⟨fun h => absurd h Bool.false_ne_true, fun ⟨word, hword, hop⟩ => ?_⟩
      exact hno ▸ contains_of_operator hword hop

/-- The line `cat < f`. -/
theorem cat_f_selects : ComesToCascade .zero "cat < f\n".toList "cat < f".toList ∧
    (EntersRedir ((body .zero "cat < f\n".toList).run (.ofExec fun _ => none) .terminal) ↔
      ∃ word ∈ tokens "cat < f".toList, isOperator word = true) := by
  have hext : External "cat < f".toList := ⟨"cat".toList, by decide, by decide⟩
  refine (selects_iff Locals.zero_ok (by decide) (by decide) hext _ _).mpr ⟨by decide, .inl ?_⟩
  exact ⟨"<".toList, by decide, by decide⟩

/-- The line `echo a>b ; ls` has no operator, and takes the branch. -/
theorem echo_selects : ¬ (ComesToCascade .zero "echo a>b ; ls\n".toList "echo a>b ; ls".toList ∧
    (EntersRedir ((body .zero "echo a>b ; ls\n".toList).run (.ofExec fun _ => none) .terminal) ↔
      ∃ word ∈ tokens "echo a>b ; ls".toList, isOperator word = true)) := by
  have hext : External "echo a>b ; ls".toList := ⟨"echo".toList, by decide, by decide⟩
  intro h
  have hcommand : command "echo a>b ; ls\n".toList = some "echo a>b ; ls".toList := by decide
  have henters := entersRedir_iff Locals.zero_ok (by decide) hcommand hext (by decide)
    (.ofExec fun _ => none) .terminal
  exact absurd (h.2.mp (henters.mpr (by decide))) (by decide)

end

end UnixSys.Shell
