import UnixSys.Shell.Joined
import UnixSys.Shell.Contexts
import UnixSys.Shell.Capacity

/-!
# Sequence — one line with `;`, and the commands on lines of their own

The cascade of `main` looks at the whole line: its first word decides about the builtins,
and any `<` or `>` on it about the branch for redirections, before the line is split at
`;`. What is split off is run as a plain command. So the line does what its commands do on
lines of their own when they are plain, or when the first of them is `exit`, and in no
other case (`sequences_iff`).
-/

namespace UnixSys.Shell

open Posix

variable {W : Type} {env : Env W} {x : Ctx W}

/-! ## The statement -/

/-- The commands that a line of its own can hold: a plain command, a builtin (`compile`
with its word), a command with redirections that all have a file name, a pipeline. -/
inductive Kind (c : Str) : Prop
  | plain : Plain c → Kind c
  | builtin {word b : Str} : (tokens c).head? = some word → b ∈ builtins →
      eqIgnoreCase word b = true → (b = "compile".toList → 2 ≤ (tokens c).length) →
      ¬ Dangling (tokens c) → Kind c
  | redirected : External c → (c.contains '<' || c.contains '>') = true →
      ¬ Dangling (tokens c) → Kind c
  | pipeline : External c → (c.contains '<' || c.contains '>') = false →
      c.contains '|' = true → fields '|' c ≠ [] → (fields '|' c).length < maxArg →
      (∀ f ∈ fields '|' c, (tokens (trimmed f)).length < maxArg) → Kind c

/-- A command as it can be typed between two `;`, and handled on a line of its own. -/
structure Handled (c : Str) : Prop extends Segment c where
  text : NUL ∉ c ∧ '\n' ∉ c
  room : (tokens c).length < maxArg
  kind : Kind c

/-- The one line and the lines launch the same processes, in the same order and with the
same standard input and output, and leave the read loop at the same point. -/
def Sequences (cs : List Str) : Prop :=
  ∀ {W : Type} (env : Env W) (x : Ctx W) (l l' : Locals), l.Ok → l'.Ok →
    ((readLoop (chunks (typed [joined cs])) l).run env x).observed =
      ((readLoop (chunks (typed cs)) l').run env x).observed

/-! ## Lines one after the other -/

/-- What lines do. -/
def runLines : List Str → Prog Unit
  | [] => pure ()
  | c :: cs => do
      runLine c
      runLines cs

theorem runLines_singleton (c : Str) : runLines [c] = runLine c := bind_pure _

theorem readLoop_rel {cs : List Str}
    (hcs : ∀ c ∈ cs, NUL ∉ c ∧ c.length + 1 < maxLine ∧ ¬ Dangling (tokens c)) {l : Locals}
    (hl : l.Ok) : (readLoop (cs.map (· ++ ['\n'])) l).Rel RoundOk (runLines cs) := by
  induction cs generalizing l with
  | nil => exact .ret hl
  | cons c cs ih =>
      obtain ⟨hnul, hlen, hnamed⟩ := hcs c List.mem_cons_self
      have hbody : (body l (c ++ ['\n'])).Rel RoundOk (runLine c) :=
        body_rel hl (by simpa using hlen) (command_append hnul (by decide)) fun _ => hnamed
      exact hbody.bind fun l' _ hl' => ih (fun d hd => hcs d (List.mem_cons_of_mem c hd)) hl'

/-- A line whose first word is `exit` ends the loop, whatever would come next. -/
theorem exit_observed {α : Type} {c : Str} (hroom : (tokens c).length < maxArg)
    (hexit : isExit c = true) (f : Unit → Prog α) (env : Env W) (x : Ctx W) :
    ((runLine c >>= f).run env x).observed = ([], .exited 0) := by
  cases hword : (tokens c).head? with
  | none =>
      rw [isExit, hword] at hexit
      cases hexit
  | some word =>
      rw [isExit_eq hword] at hexit
      rw [runLine, if_pos hroom, hword]
      simp only [strcasecmp, Prog.call_bind, Prog.ret_bind, Prog.run, Call.apply, hexit, if_true]
      rfl

/-! ## Plain commands -/

/-- The fields of a `;` line, and plain commands on lines of their own. -/
theorem fields_observed {fs : List Str}
    (hfs : ∀ f ∈ fs, Plain (trimmed f) ∧ (tokens (trimmed f)).length < maxArg) :
    ((do runFields fs; printf prompt).run env x).observed =
      ((runLines (fs.map trimmed)).run env x).observed := by
  induction fs generalizing x with
  | nil => exact ((Prog.Passes.ret () x).bind (printf_passes prompt x)).observed
  | cons f fs ih =>
      obtain ⟨hplain, hroom⟩ := hfs f List.mem_cons_self
      have hrest := fun g hg => hfs g (List.mem_cons_of_mem f hg)
      rw [runFields_cons, runField, if_pos hroom, List.map_cons, runLines, bind_assoc]
      by_cases hfits : (expand env x.world (tokens (trimmed f))).length < maxArg
      · -- a line of its own prints a prompt, which no later command looks at
        obtain ⟨z, hpass, hlike⟩ := hplain.passes hroom hfits
        have hlater : ((runLines (fs.map trimmed)).run env _).observed =
            ((runLines (fs.map trimmed)).run env z).observed := (Prog.run_like _ hlike).observed_eq
        rw [(runWords_passes hfits).observed_bind, hpass.observed_bind, ih hrest, hlater]
      · have hfull : maxArg ≤ (expand env x.world (tokens (trimmed f))).length := by omega
        rw [(runWords_crashes hfull).observed_bind,
          (hplain.crashes hroom hfull).observed_bind]

/-! ## Handled commands -/

section
variable {c : Str}

theorem Handled.not_dangling (hc : Handled c) : ¬ Dangling (tokens c) := by
  have hfree : (c.contains '<' || c.contains '>') = false → ¬ Dangling (tokens c) := by
    intro hno hd
    obtain ⟨word, hword, hop⟩ := splitRedir_none_operator hd
    rw [isOperator_iff] at hop
    rcases hop with rfl | rfl
    · have hmem : '<' ∈ c := mem_of_mem_tokens hword (by decide)
      simp [hmem] at hno
    · have hmem : '>' ∈ c := mem_of_mem_tokens hword (by decide)
      simp [hmem] at hno
  cases hc.kind with
  | plain h =>
      apply hfree
      rw [h.contains_eq '<' (by simp [operators]), h.contains_eq '>' (by simp [operators])]
      rfl
  | builtin _ _ _ _ hnamed => exact hnamed
  | redirected _ _ hnamed => exact hnamed
  | pipeline _ hno => exact hfree hno

/-- The text of the joined line, as `fgets` needs it. -/
theorem joined_text {cs : List Str} (hcs : ∀ c ∈ cs, Handled c) :
    NUL ∉ joined cs ∧ '\n' ∉ joined cs := by
  constructor
  · intro h
    obtain ⟨c, hc, hmem⟩ := (mem_joined (by decide) (by decide)).mp h
    exact (hcs c hc).text.1 hmem
  · intro h
    obtain ⟨c, hc, hmem⟩ := (mem_joined (by decide) (by decide)).mp h
    exact (hcs c hc).text.2 hmem

/-- What the lines are observed to do does not depend on the memory of the shell. -/
theorem sequences_iff_runs {cs : List Str} (hcs : ∀ c ∈ cs, Handled c)
    (hline : (joined cs).length + 1 < maxLine) : Sequences cs ↔
      ∀ {W : Type} (env : Env W) (x : Ctx W),
        ((runLine (joined cs)).run env x).observed = ((runLines cs).run env x).observed := by
  have htext := joined_text hcs
  have hone : chunks (typed [joined cs]) = [joined cs].map (· ++ ['\n']) := by
    refine chunks_typed ?_
    intro s hs
    rw [List.mem_singleton.mp hs]
    exact ⟨htext.2, hline⟩
  have hshort : ∀ c ∈ cs, c.length + 1 < maxLine := by
    intro c hc
    have hle := length_joined hc
    omega
  have heach : chunks (typed cs) = cs.map (· ++ ['\n']) :=
    chunks_typed fun c hc => ⟨(hcs c hc).text.2, hshort c hc⟩
  have hrel : ∀ l : Locals, l.Ok →
      (readLoop (chunks (typed [joined cs])) l).Rel RoundOk (runLine (joined cs)) := by
    intro l hl
    rw [hone, ← runLines_singleton]
    refine readLoop_rel ?_ hl
    intro s hs
    rw [List.mem_singleton.mp hs]
    exact ⟨htext.1, hline, joined_not_dangling (fun c hc => (hcs c hc).toSegment)
      fun c hc => (hcs c hc).not_dangling⟩
  have hrel' : ∀ l : Locals, l.Ok → (readLoop (chunks (typed cs)) l).Rel RoundOk (runLines cs) := by
    intro l hl
    rw [heach]
    exact readLoop_rel (fun c hc => ⟨(hcs c hc).text.1, hshort c hc, (hcs c hc).not_dangling⟩) hl
  constructor
  · intro h W env x
    rw [← (hrel .zero Locals.zero_ok).observed_eq, ← (hrel' .zero Locals.zero_ok).observed_eq]
    exact h env x .zero .zero Locals.zero_ok Locals.zero_ok
  · intro h W env x l l' hl hl'
    rw [(hrel l hl).observed_eq, (hrel' l' hl').observed_eq]
    exact h env x

end

/-- The line does what its commands do, when they are plain. -/
theorem plain_runs {c d : Str} {rest : List Str} (hcs : ∀ e ∈ c :: d :: rest, Handled e)
    (hroom : (tokens (joined (c :: d :: rest))).length < maxArg)
    (hplain : ∀ e ∈ c :: d :: rest, Plain e) (env : Env W) (x : Ctx W) :
    ((runLine (joined (c :: d :: rest))).run env x).observed =
      ((runLines (c :: d :: rest)).run env x).observed := by
  have hseg : ∀ e ∈ c :: d :: rest, Segment e := fun e he => (hcs e he).toSegment
  have hne : c :: d :: rest ≠ [] := List.cons_ne_nil _ _
  have hno : ((joined (c :: d :: rest)).contains '<' ||
      (joined (c :: d :: rest)).contains '>') = false := by
    have hlt := fun e he => (hplain e he).contains_eq '<' (by simp [operators])
    have hgt := fun e he => (hplain e he).contains_eq '>' (by simp [operators])
    rw [(contains_joined (by decide) (by decide)).mpr hlt,
      (contains_joined (by decide) (by decide)).mpr hgt]
    rfl
  have hfs : ∀ f ∈ fields ';' (joined (c :: d :: rest)),
      Plain (trimmed f) ∧ (tokens (trimmed f)).length < maxArg := by
    intro f hf
    obtain ⟨hmem, hle⟩ := field_joined hseg hne hf
    exact ⟨hplain _ hmem, by omega⟩
  have hexternal : External (joined (c :: d :: rest)) :=
    (hplain c List.mem_cons_self).external.joined hseg
  rw [runLine_observed hroom hexternal, runPlain_joined hno, fields_observed hfs,
    fields_joined hseg hne]

/-! ## Where no pattern matches

With `glob` finding nothing each line is launched with its own words, and what the
commands launch on lines of their own can be compared with what the one line launches. -/

section
variable {exec : Launch → Option Image}

/-- What a line below the builtins needs to be one process with redirections. -/
theorem redir_argvs {s : Str} (hroom : (tokens s).length < maxArg) (hext : External s)
    (hredir : (s.contains '<' || s.contains '>') = true) (hnamed : ¬ Dangling (tokens s)) :
    ∃ args, (runLine s).Argvs (.ofExec exec) [args] := by
  obtain ⟨⟨input, output, ws⟩, hsplit⟩ := Option.ne_none_iff_exists'.mp hnamed
  have hle : ws.length ≤ (tokens s).length := by
    rw [splitRedir_words hsplit]
    exact (commandWords_sublist _).length_le
  have hfits : Fits (.ofExec exec) ws 0 := fits_ofExec exec (by omega)
  refine ⟨expand (.ofExec exec) () ws, runLine_argvs hroom hext ?_⟩
  rw [runPlain, hredir, hsplit]
  exact runRedirected_argvs (fun _ => rfl) hfits input output

theorem runCompile_argvs (exec : Launch → Option Image) (word name : Str) (rest : List Str) :
    (runCompile (word :: name :: rest)).Argvs (.ofExec exec)
      [["gcc".toList, name, "-o".toList, name.take (nameLength name)]] := by
  have hfits : Fits (.ofExec exec) ["gcc".toList, name, "-o".toList,
      name.take (nameLength name)] 0 := fits_ofExec exec (by decide : 0 + 4 < maxArg)
  have h := (runWords_argvs (w := ()) (fun _ => rfl) hfits).bind (printf_silent prompt).argvs
  rwa [expand_ofExec] at h

/-- A `compile` line with a word runs one process, which is `gcc`. -/
theorem gcc_argvs {s word : Str} (hroom : (tokens s).length < maxArg)
    (hword : (tokens s).head? = some word)
    (hcompile : eqIgnoreCase word "compile".toList = true) (htwo : 2 ≤ (tokens s).length) :
    ∃ args, (runLine s).Argvs (.ofExec exec) ["gcc".toList :: args] := by
  obtain ⟨w, t, htokens⟩ :=
    List.exists_cons_of_length_pos (Nat.lt_of_lt_of_le Nat.zero_lt_two htwo)
  rw [htokens] at htwo
  obtain ⟨name, rest, rfl⟩ := List.exists_cons_of_length_pos (Nat.le_of_succ_le_succ htwo)
  have hrun := runCompile_argvs exec w name rest
  rw [← htokens] at hrun
  exact ⟨_, compile_argvs hroom hword hcompile hrun⟩

theorem listall_argvs {s word : Str} (hroom : (tokens s).length < maxArg)
    (hword : (tokens s).head? = some word)
    (hlistall : eqIgnoreCase word "listall".toList = true) :
    (runLine s).Argvs (.ofExec exec) [["ls".toList, "-la".toList]] := by
  intro x
  obtain ⟨y, hpass⟩ := listall_passes hroom hword hlistall (.ofExec exec) x
  exact ⟨_, y, hpass, rfl⟩

/-- What a handled command launches on a line of its own: at least one process, and its
own words only when it is plain. -/
def Launched (c : Str) (as : List (List Str)) : Prop :=
  as ≠ [] ∧ ((c.contains '<' || c.contains '>') = false → as = [tokens c] → Plain c)

/-- A pipeline does not launch the words of its line: there is a `|` in them. -/
theorem pipeline_words {c : Str} (hbar : c.contains '|' = true) :
    ((fields '|' c).map trimmed).map tokens ≠ [tokens c] := by
  intro heq
  have hmem : '|' ∈ c := by simpa using hbar
  obtain ⟨word, hword, hb⟩ := exists_word_of_mem hmem (by decide)
  have hstage : tokens c ∈ ((fields '|' c).map trimmed).map tokens := by
    rw [heq]
    exact List.mem_singleton_self _
  obtain ⟨t, ht, htokens⟩ := List.mem_map.mp hstage
  obtain ⟨f, hf, rfl⟩ := List.mem_map.mp ht
  have hmemt : word ∈ tokens (trimmed f) := htokens ▸ List.mem_append_left _ hword
  have hfield : '|' ∈ f := trimmed_subset (mem_of_mem_tokens hmemt hb)
  have hnot := (mem_pieces _ hf).2 '|' hfield
  simp at hnot

theorem Handled.argvs {c : Str} (hc : Handled c) (hexit : isExit c = false) :
    ∃ as, (runLine c).Argvs (.ofExec exec) as ∧ Launched c as := by
  have hroom := hc.room
  cases hc.kind with
  | plain h =>
      refine ⟨[tokens c], ?_, List.cons_ne_nil _ _, fun _ _ => h⟩
      have hfits : Fits (.ofExec exec) (tokens c) 0 := fits_ofExec exec (by omega)
      apply runLine_argvs hroom h.external
      rw [h.runPlain_eq]
      have hrun := (runWords_argvs (w := ()) (fun _ => rfl) hfits).bind (printf_silent prompt).argvs
      rwa [expand_ofExec] at hrun
  | @builtin word b hword hb heq htwo _ =>
      simp only [builtins, List.mem_cons, List.not_mem_nil, or_false] at hb
      rcases hb with rfl | rfl | rfl
      · rw [isExit_eq hword, heq] at hexit
        cases hexit
      · refine ⟨_, listall_argvs hroom hword heq, List.cons_ne_nil _ _, fun _ htokens => ?_⟩
        rw [← List.head_eq_of_cons_eq htokens] at hword
        cases hword
        exact absurd heq (by decide)
      · obtain ⟨args, hargs⟩ := gcc_argvs hroom hword heq (htwo rfl)
        refine ⟨_, hargs, List.cons_ne_nil _ _, fun _ htokens => ?_⟩
        rw [← List.head_eq_of_cons_eq htokens] at hword
        cases hword
        exact absurd heq (by decide)
  | redirected hext hredir hnamed =>
      obtain ⟨args, hargs⟩ := redir_argvs hroom hext hredir hnamed
      refine ⟨[args], hargs, List.cons_ne_nil _ _, fun hno => ?_⟩
      rw [hredir] at hno
      cases hno
  | pipeline hext hno hbar hne hlt hfits =>
      have hsemi : c.contains ';' = false := by simpa using hc.single
      refine ⟨((fields '|' c).map trimmed).map tokens, ?_, ?_, fun _ heq => ?_⟩
      · apply runLine_argvs hroom hext
        rw [runPlain, hno, hsemi, hbar]
        refine runPipeline_argvs (by rwa [List.length_map]) ?_
        intro t ht
        obtain ⟨f, hf, rfl⟩ := List.mem_map.mp ht
        have hlen := hfits f hf
        exact ⟨hlen, fits_ofExec exec (by omega)⟩
      · simpa using hne
      · exact absurd heq (pipeline_words hbar)

/-- The lines launch what each of them launches, or one of them ends the loop. -/
theorem runLines_argvs (exec : Launch → Option Image) {cs : List Str} (hcs : ∀ c ∈ cs, Handled c) :
    (∃ ass, (runLines cs).Argvs (.ofExec exec) ass.flatten ∧ List.Forall₂ Launched cs ass) ∨
    ∀ x, ∃ ls, ((runLines cs).run (.ofExec exec) x).observed = (ls, .exited 0) := by
  induction cs with
  | nil => exact .inl ⟨[], (Prog.Silent.ret ()).argvs, .nil⟩
  | cons c cs ih =>
      have hc := hcs c List.mem_cons_self
      cases hexit : isExit c with
      | true => exact .inr fun x => ⟨[], exit_observed hc.room hexit _ _ x⟩
      | false =>
          obtain ⟨as, hargs, has⟩ := hc.argvs hexit
          rcases ih fun d hd => hcs d (List.mem_cons_of_mem c hd) with ⟨ass, hrest, hass⟩ | hrest
          · exact .inl ⟨as :: ass, hargs.bind hrest, .cons has hass⟩
          · refine .inr fun x => ?_
            obtain ⟨ls, y, hpass, -⟩ := hargs x
            obtain ⟨ls', hout⟩ := hrest y
            refine ⟨ls ++ ls', ?_⟩
            rw [runLines, hpass.observed_bind, hout]

/-- One process, or the commands as if they were plain. -/
def JoinedArgvs (cs : List Str) (as : List (List Str)) : Prop :=
  as.length = 1 ∨
    ((∀ c ∈ cs, (c.contains '<' || c.contains '>') = false) ∧ as = cs.map tokens)

/-- The joined line below the builtins. -/
theorem joined_below (exec : Launch → Option Image) {c d : Str} {rest : List Str}
    (hcs : ∀ e ∈ c :: d :: rest, Handled e)
    (hroom : (tokens (joined (c :: d :: rest))).length < maxArg) (hext : External c) :
    ∃ as, (runLine (joined (c :: d :: rest))).Argvs (.ofExec exec) as ∧
      JoinedArgvs (c :: d :: rest) as := by
  have hseg : ∀ e ∈ c :: d :: rest, Segment e := fun e he => (hcs e he).toSegment
  have hne : c :: d :: rest ≠ [] := List.cons_ne_nil _ _
  have hjoined := hext.joined hseg
  cases hredir : (joined (c :: d :: rest)).contains '<' ||
      (joined (c :: d :: rest)).contains '>' with
  | true =>
      obtain ⟨args, hargs⟩ := redir_argvs hroom hjoined hredir
        (joined_not_dangling hseg fun e he => (hcs e he).not_dangling)
      exact ⟨[args], hargs, .inl rfl⟩
  | false =>
      have hfits : ∀ f ∈ fields ';' (joined (c :: d :: rest)),
          (tokens (trimmed f)).length < maxArg ∧
            Fits (.ofExec exec) (tokens (trimmed f)) 0 := by
        intro f hf
        have hle := (field_joined hseg hne hf).2
        exact ⟨by omega, fits_ofExec exec (by omega)⟩
      have hwords : (fields ';' (joined (c :: d :: rest))).map (fun f =>
          expand (.ofExec exec) () (tokens (trimmed f))) = (c :: d :: rest).map tokens := by
        have h := congrArg (List.map tokens) (fields_joined hseg hne)
        rw [List.map_map] at h
        simp only [expand_ofExec]
        exact h
      have hrun := (runFields_argvs (w := ()) (fun _ => rfl) hfits).bind
        (printf_silent prompt).argvs
      rw [hwords, List.append_nil, ← runPlain_joined hredir] at hrun
      refine ⟨_, runLine_argvs hroom hjoined hrun, .inr ⟨fun e he => ?_, rfl⟩⟩
      rw [Bool.or_eq_false_iff] at hredir ⊢
      exact ⟨(contains_joined (by decide) (by decide)).mp hredir.1 e he,
        (contains_joined (by decide) (by decide)).mp hredir.2 e he⟩

theorem joined_argvs (exec : Launch → Option Image) {c d : Str} {rest : List Str}
    (hcs : ∀ e ∈ c :: d :: rest, Handled e)
    (hroom : (tokens (joined (c :: d :: rest))).length < maxArg) (hexit : isExit c = false) :
    ∃ as, (runLine (joined (c :: d :: rest))).Argvs (.ofExec exec) as ∧
      JoinedArgvs (c :: d :: rest) as := by
  have hseg : ∀ e ∈ c :: d :: rest, Segment e := fun e he => (hcs e he).toSegment
  cases (hcs c List.mem_cons_self).kind with
  | plain h => exact joined_below exec hcs hroom h.external
  | redirected hext => exact joined_below exec hcs hroom hext
  | pipeline hext => exact joined_below exec hcs hroom hext
  | @builtin word b hword hb heq htwo _ =>
      -- a builtin in front takes the whole line
      rw [isExit_eq hword] at hexit
      rw [← head_joined hseg] at hword
      simp only [builtins, List.mem_cons, List.not_mem_nil, or_false] at hb
      rcases hb with rfl | rfl | rfl
      · rw [heq] at hexit
        cases hexit
      · exact ⟨_, listall_argvs hroom hword heq, .inl rfl⟩
      · have hle := length_tokens_joined hseg List.mem_cons_self
        obtain ⟨args, hargs⟩ := gcc_argvs hroom hword heq (Nat.le_trans (htwo rfl) hle)
        exact ⟨_, hargs, .inl rfl⟩

end

section
variable {cs : List Str} {ass : List (List (List Str))} (h : List.Forall₂ Launched cs ass)
include h

theorem length_le_flatten : cs.length ≤ ass.flatten.length := by
  induction h with
  | nil => exact Nat.le_refl 0
  | cons has _ ih =>
      have hpos := List.length_pos_iff.mpr has.1
      rw [List.length_cons, List.flatten_cons, List.length_append]
      omega

/-- Lines that launch their own words, one process a line, are plain commands. -/
theorem plain_of_flatten (hno : ∀ c ∈ cs, (c.contains '<' || c.contains '>') = false)
    (heq : ass.flatten = cs.map tokens) : ∀ c ∈ cs, Plain c := by
  induction h with
  | nil => exact fun c hc => absurd hc List.not_mem_nil
  | @cons c as cs ass has hrest ih =>
      obtain ⟨u, us, rfl⟩ := List.exists_cons_of_ne_nil has.1
      -- there is one process for each line, so that none launches a second one
      have hone : us = [] := by
        have hlen := congrArg List.length heq
        have hle := length_le_flatten hrest
        simp only [List.flatten_cons, List.length_append, List.length_cons, List.length_map] at hlen
        exact List.length_eq_zero_iff.mp (by omega)
      subst hone
      rw [List.flatten_cons, List.map_cons, List.singleton_append] at heq
      have hc : [u] = [tokens c] := congrArg (fun t => [t]) (List.head_eq_of_cons_eq heq)
      rw [List.forall_mem_cons] at hno ⊢
      exact ⟨has.2 hno.1 hc, ih hno.2 (List.tail_eq_of_cons_eq heq)⟩

end

/-! ## The law -/

/-- What the one line does when no command of it is set apart. -/
theorem plain_of_observed {c d : Str} {rest : List Str} (hcs : ∀ e ∈ c :: d :: rest, Handled e)
    (hsame : ∀ x : Ctx Unit,
      ((runLine (joined (c :: d :: rest))).run (.ofExec fun _ => none) x).observed =
        ((runLines (c :: d :: rest)).run (.ofExec fun _ => none) x).observed) :
    (tokens (joined (c :: d :: rest))).length < maxArg ∧
      (isExit c = true ∨ ∀ e ∈ c :: d :: rest, Plain e) := by
  have hrun := hsame .terminal
  have hlines := runLines_argvs (fun _ => none) hcs
  by_cases hroom : (tokens (joined (c :: d :: rest))).length < maxArg
  swap
  · -- the line overflows `argv` before it launches anything
    have hub : ((runLine (joined (c :: d :: rest))).run (.ofExec fun _ => none)
        Ctx.terminal).observed = ([], .ub) := by
      rw [runLine, if_neg hroom]
      rfl
    rw [hub] at hrun
    rcases hlines with ⟨ass, hargs, -⟩ | hexited
    · obtain ⟨ls, y, hpass, -⟩ := hargs .terminal
      rw [hpass.observed] at hrun
      cases hrun
    · obtain ⟨ls, hout⟩ := hexited .terminal
      rw [hout] at hrun
      cases hrun
  · refine ⟨hroom, ?_⟩
    cases hexit : isExit c with
    | true => exact .inl rfl
    | false =>
        -- the launches of the one line against those of the single lines
        obtain ⟨js, hjoined, hjs⟩ := joined_argvs (fun _ => none) hcs hroom hexit
        obtain ⟨ls, y, hpass, hls⟩ := hjoined .terminal
        rw [hpass.observed] at hrun
        rcases hlines with ⟨ass, hargs, hass⟩ | hexited
        · obtain ⟨ls', z, hpass', hls'⟩ := hargs .terminal
          rw [hpass'.observed] at hrun
          cases hrun
          rw [hls] at hls'
          rcases hjs with hone | ⟨hno, hwords⟩
          · have hle := length_le_flatten hass
            rw [← hls', hone] at hle
            simp at hle
          · exact .inr (plain_of_flatten hass hno (hls'.symm.trans hwords))
        · obtain ⟨ls', hout⟩ := hexited .terminal
          rw [hout] at hrun
          cases hrun

/-- The one line does what the lines do, exactly when there is one command, or the line
fits in `argv` and its first command is `exit` or all its commands are plain. -/
theorem sequences_iff {cs : List Str} (hne : cs ≠ []) (hcs : ∀ c ∈ cs, Handled c)
    (hline : (joined cs).length + 1 < maxLine) : Sequences cs ↔
      cs.length = 1 ∨ (tokens (joined cs)).length < maxArg ∧
        ((∃ c, cs.head? = some c ∧ isExit c = true) ∨ ∀ c ∈ cs, Plain c) := by
  rw [sequences_iff_runs hcs hline]
  obtain ⟨c, rest, rfl⟩ := List.exists_cons_of_ne_nil hne
  cases rest with
  | nil =>
      refine iff_of_true ?_ (.inl rfl)
      intro W env x
      rw [runLines_singleton]
      rfl
  | cons d rest =>
      constructor
      · intro h
        obtain ⟨hroom, hexit | hplain⟩ := plain_of_observed hcs fun x => h _ x
        · exact .inr ⟨hroom, .inl ⟨c, rfl, hexit⟩⟩
        · exact .inr ⟨hroom, .inr hplain⟩
      · rintro (hone | ⟨hroom, ⟨c', hc', hexit⟩ | hplain⟩) W env x
        · simp at hone
        · cases hc'
          have hjoined : isExit (joined (c :: d :: rest)) = true := by
            rw [isExit, head_joined fun e he => (hcs e he).toSegment]
            exact hexit
          have hline := exit_observed hroom hjoined pure env x
          rw [bind_pure] at hline
          rw [hline]
          exact (exit_observed (hcs c List.mem_cons_self).room hexit _ env x).symm
        · exact plain_runs hcs hroom hplain env x

theorem ls_plain : Plain "ls".toList :=
  ⟨⟨"ls".toList, by decide, by decide⟩, by simp [operators]⟩

theorem wc_plain : Plain "wc".toList :=
  ⟨⟨"wc".toList, by decide, by decide⟩, by simp [operators]⟩

theorem ls_handled : Handled "ls".toList := by
  have hsegment : Segment "ls".toList :=
    ⟨by decide, ⟨by simp [isBlank], by decide⟩, by decide⟩
  exact ⟨hsegment, by decide, by decide, .plain ls_plain⟩

theorem wc_handled : Handled "wc".toList := by
  have hsegment : Segment "wc".toList :=
    ⟨by decide, ⟨by simp [isBlank], by decide⟩, by decide⟩
  exact ⟨hsegment, by decide, by decide, .plain wc_plain⟩

theorem exit_handled : Handled "exit".toList := by
  have hsegment : Segment "exit".toList :=
    ⟨by decide, ⟨by simp [isBlank], by decide⟩, by decide⟩
  have hexit : "exit".toList ∈ builtins := by simp [builtins]
  have hword : (tokens "exit".toList).head? = some "exit".toList := by decide
  exact ⟨hsegment, by decide, by decide,
    .builtin hword hexit (by decide) (fun h => absurd h (by decide)) (by decide)⟩

/-- `ls ; wc` is `ls` and `wc`. -/
theorem ls_wc_sequences : (∀ c ∈ ["ls".toList, "wc".toList], Handled c) ∧
    Sequences ["ls".toList, "wc".toList] := by
  have hcs : ∀ c ∈ ["ls".toList, "wc".toList], Handled c := by
    simp only [List.forall_mem_cons]
    exact ⟨ls_handled, wc_handled, fun c hc => absurd hc List.not_mem_nil⟩
  have hplain : ∀ c ∈ ["ls".toList, "wc".toList], Plain c := by
    simp only [List.forall_mem_cons]
    exact ⟨ls_plain, wc_plain, fun c hc => absurd hc List.not_mem_nil⟩
  have hlaw := sequences_iff (List.cons_ne_nil _ _) hcs (by decide)
  exact ⟨hcs, hlaw.mpr (.inr ⟨by decide, .inr hplain⟩)⟩

/-- `ls ; exit` runs a command `exit`, and the shell goes on. -/
theorem ls_exit_differ : (∀ c ∈ ["ls".toList, "exit".toList], Handled c) ∧
    ¬ Sequences ["ls".toList, "exit".toList] := by
  have hcs : ∀ c ∈ ["ls".toList, "exit".toList], Handled c := by
    simp only [List.forall_mem_cons]
    exact ⟨ls_handled, exit_handled, fun c hc => absurd hc List.not_mem_nil⟩
  refine ⟨hcs, fun h => ?_⟩
  have hsame := (sequences_iff_runs hcs (by decide)).mp h (.ofExec fun _ => none)
  rcases (plain_of_observed hcs hsame).2 with hexit | hplain
  · exact absurd hexit (by decide)
  · obtain ⟨word, hword, hb⟩ := (hplain "exit".toList (by simp)).external
    have hexit : eqIgnoreCase word "exit".toList = false := hb _ (by simp [builtins])
    have hfirst : (tokens "exit".toList).head? = some "exit".toList := by decide
    rw [hfirst] at hword
    cases hword
    exact absurd hexit (by decide)

end UnixSys.Shell
