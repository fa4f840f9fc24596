import UnixSys.Shell.Effects
import UnixSys.Posix.Worlds
import UnixSys.Shell.Selection
import UnixSys.Shell.Stale

/-!
# Capacity — the four arrays of 64 pointers

`argv`, `expanded_argv`, `argv2` and `command_array` are filled without a bound.
`arrays_hold_iff` says for which lines and directories every store stays inside
them.
-/

namespace UnixSys.Shell

open Posix

variable {W : Type} {env : Env W} {w : W}

/-- Nothing may be undefined. -/
def inBounds : Policy := { mayCrash := False }

/-! ## What each loop needs -/

theorem glob_answers (word : Str) (r : Option (List Str)) (w' : W) :
    (Call.glob word).Answers env w r w' ↔ r = env.glob w word ∧ w' = w := Iff.rfl

theorem expandWords_keeps {α : Type} (ws acc : List Str) (f : List Str → Prog α) :
    (expandWords ws acc >>= f).Keeps env inBounds w ↔
      acc.length + (expand env w ws).length < maxArg ∧
        (f (acc ++ expand env w ws)).Keeps env inBounds w := by
  induction ws generalizing acc with
  | nil =>
      rw [expandWords, expand, List.flatMap_nil, List.append_nil, List.length_nil, Nat.add_zero]
      split
      · rename_i hlt
        exact (and_iff_right hlt).symm
      · rename_i hge
        exact iff_of_false id fun h => hge h.1
  | cons word ws ih =>
      rw [expandWords]
      simp only [glob, Prog.call_bind, Prog.ret_bind]
      rw [Prog.keeps_call trivial (glob_answers word), expand_cons, List.length_append,
        ← Nat.add_assoc, ← List.append_assoc]
      split
      · rw [ih, List.length_append]
      · rename_i hgt
        refine iff_of_false id fun h => hgt ?_
        omega

theorem printf_still (t : Str) : (printf t).Still env inBounds :=
  .call trivial () (fun _ => ⟨rfl, trivial⟩) fun _ _ _ => Iff.rfl

theorem close_still (fd : Int) : (close fd).Still env inBounds :=
  .call trivial () (fun _ => ⟨rfl, trivial⟩) fun _ _ _ => Iff.rfl

theorem dup2_still (old new : Int) : (dup2 old new).Still env inBounds :=
  .call trivial () (fun _ => ⟨rfl, trivial⟩) fun _ _ _ => Iff.rfl

/-- What every child of the shell ends with. -/
theorem execvp_leaves {α β : Type} (args : List Str) (f : α → Prog β) (w' : W) :
    ((do execvp args; printf execFailed; exit 1 : Prog α) >>= f).Leaves env w w' ↔
      Ran env w args w' := by
  refine Prog.leaves_execvp ?_
  exact (printf_still execFailed).leaves (fun _ => .exit 1) w w'

theorem execvp_keeps {α β : Type} (args : List Str) (f : α → Prog β) :
    ((do execvp args; printf execFailed; exit 1 : Prog α) >>= f).Keeps env inBounds w :=
  ⟨trivial, fun _ => ⟨trivial, fun _ _ _ => trivial⟩⟩

/-- The shell goes on in a file system that the command can leave. -/
theorem runCommand_keeps {α : Type} (args : List Str) (f : Unit → Prog α) :
    (runCommand args >>= f).Keeps env inBounds w ↔
      ∀ w', Ran env w args w' → (f ()).Keeps env inBounds w' := by
  constructor
  · intro h w' hw'
    exact h.2.2 0 w' ((execvp_leaves args f w').mpr hw')
  · intro h
    refine ⟨⟨trivial, fun _ _ _ => trivial⟩, execvp_keeps args f, fun pid w' hw' => ?_⟩
    exact h w' ((execvp_leaves args f w').mp hw')

theorem runWords_keeps {α : Type} (ws : List Str) (f : Unit → Prog α) :
    (runWords ws >>= f).Keeps env inBounds w ↔ (expand env w ws).length < maxArg ∧
      ∀ w', Ran env w (expand env w ws) w' → (f ()).Keeps env inBounds w' := by
  rw [runWords, Prog.bind_bind, expandWords_keeps, List.length_nil, Nat.zero_add, List.nil_append,
    runCommand_keeps]

/-- What the words of one field or stage need. -/
def FieldWithin (env : Env W) (w : W) (c : Str) : Prop :=
  (tokens c).length < maxArg ∧ (expand env w (tokens c)).length < maxArg

/-- What the fields or stages `cs` need, one after the other, when `c` executes
`args w c` in the file system `w`: each in all that those before it can leave. -/
def FieldsWithin (env : Env W) (args : W → Str → List Str) : List Str → W → Prop
  | [], _ => True
  | c :: cs, w => FieldWithin env w c ∧
      ∀ w', Ran env w (args w c) w' → FieldsWithin env args cs w'

/-- A field of a `;` line executes the expansion of its words. -/
def expandedWords (env : Env W) (w : W) (c : Str) : List Str := expand env w (tokens c)

/-- A stage of a pipeline executes its words as they are. -/
def plainWords (_ : W) (c : Str) : List Str := tokens c

theorem runFields_keeps {α : Type} (fs : List Str) {f : Unit → Prog α}
    (hf : ∀ w, (f ()).Keeps env inBounds w) : (runFields fs >>= f).Keeps env inBounds w ↔
      FieldsWithin env (expandedWords env) (fs.map trimmed) w := by
  induction fs generalizing w with
  | nil => exact iff_of_true (hf w) trivial
  | cons g fs ih =>
      rw [runFields, runField, Prog.bind_bind, List.map_cons, FieldsWithin, FieldWithin, and_assoc]
      split
      · rename_i hlt
        rw [runWords_keeps, and_iff_right hlt]
        exact and_congr_right fun _ => forall₂_congr fun w' _ => ih
      · rename_i hge
        exact iff_of_false id fun h => hge h.1

/-! ### Pipelines -/

theorem closePrev_still (i : Nat) (prevPfd : Int × Int) :
    (closePrev i prevPfd).Still env inBounds := by
  rw [closePrev]
  split
  · exact (close_still _).bind (close_still _)
  · exact .ret

theorem redirectStdin_still (i : Nat) (prevPfd : Int × Int) :
    (redirectStdin i prevPfd).Still env inBounds := by
  rw [redirectStdin]
  split
  · exact (close_still _).bind ((dup2_still _ _).bind (close_still _))
  · exact .ret

theorem redirectStdout_still (last : Bool) (pfd : Int × Int) :
    (redirectStdout last pfd).Still env inBounds := by
  rw [redirectStdout]
  split
  · exact .ret
  · exact (close_still _).bind ((dup2_still _ _).bind (close_still _))

/-- A pipe that fails leaves the shell, and the next one has some descriptors. -/
theorem newPipe_keeps {α : Type} {last : Bool} {pfd : Int × Int} {f : Int × Int → Prog α}
    {P : Prop} (hf : ∀ pfd, (f pfd).Keeps env inBounds w ↔ P) :
    (newPipe last pfd >>= f).Keeps env inBounds w ↔ P := by
  rw [newPipe]
  split
  · exact hf pfd
  · constructor
    · intro h
      exact (hf (0, 0)).mp (h.2 (some (0, 0)) w ⟨trivial, rfl⟩)
    · rintro h
      refine ⟨trivial, fun r w' hr => ?_⟩
      obtain ⟨-, rfl⟩ := hr
      cases r with
      | none => exact ⟨trivial, fun _ _ _ => trivial⟩
      | some pfd => exact (hf pfd).mpr h

theorem runStage_keeps (c : Str) : (runStage c).Keeps env inBounds w ↔ FieldWithin env w c := by
  rw [runStage, FieldWithin]
  split
  · rename_i hlt
    rw [expandWords_keeps, and_iff_right hlt, List.length_nil, Nat.zero_add]
    refine and_iff_left ?_
    exact ⟨trivial, fun _ => ⟨trivial, fun _ _ _ => trivial⟩⟩
  · rename_i hge
    exact iff_of_false id fun h => hge h.1

theorem expandWords_leaves {α : Type} {ws acc : List Str} {f : List Str → Prog α} {w' : W}
    (h : acc.length + (expand env w ws).length < maxArg) :
    (expandWords ws acc >>= f).Leaves env w w' ↔
      (f (acc ++ expand env w ws)).Leaves env w w' := by
  induction ws generalizing acc with
  | nil =>
      have hlt : acc.length < maxArg := h
      rw [expandWords, if_pos hlt, expand, List.flatMap_nil, List.append_nil]
      rfl
  | cons word ws ih =>
      rw [expand_cons, List.length_append] at h
      rw [expandWords, expand_cons, ← List.append_assoc]
      simp only [glob, Prog.call_bind, Prog.ret_bind]
      rw [Prog.leaves_call (glob_answers word), if_pos (by omega)]
      exact ih (by rw [List.length_append]; omega)

theorem runStage_leaves {c : Str} {w' : W} (hc : FieldWithin env w c) :
    (runStage c).Leaves env w w' ↔ Ran env w (plainWords w c) w' := by
  rw [runStage, if_pos hc.1, expandWords_leaves (by simpa using hc.2)]
  exact execvp_leaves (tokens c) (pure : Unit → Prog Unit) w'

theorem pipeLoop_keeps {done : Prog Unit} (hdone : ∀ w, done.Keeps env inBounds w) (cs : List Str)
    (i : Nat) (pfd prevPfd : Int × Int) :
    (pipeLoop runStage done cs i pfd prevPfd).Keeps env inBounds w ↔
      FieldsWithin env plainWords cs w := by
  induction cs generalizing i pfd prevPfd w with
  | nil => exact iff_of_true (hdone w) trivial
  | cons c rest ih =>
      rw [pipeLoop, FieldsWithin]
      refine newPipe_keeps fun pfd => ?_
      have hchild : (do
          redirectStdin i prevPfd
          redirectStdout rest.isEmpty pfd
          runStage c : Prog Unit).Keeps env inBounds w ↔ FieldWithin env w c := by
        rw [(redirectStdin_still _ _).keeps, (redirectStdout_still _ _).keeps, runStage_keeps]
      have hleaves : FieldWithin env w c → ∀ w', (do
          redirectStdin i prevPfd
          redirectStdout rest.isEmpty pfd
          runStage c : Prog Unit).Leaves env w w' ↔ Ran env w (plainWords w c) w' := by
        intro hc w'
        rw [(redirectStdin_still _ _).leaves, (redirectStdout_still _ _).leaves,
          runStage_leaves hc]
      have hparent : ∀ pid w', (do
          closePrev i prevPfd
          waitpid pid
          pipeLoop runStage done rest (i + 1) pfd (if rest.isEmpty then prevPfd else pfd) :
            Prog Unit).Keeps env inBounds w' ↔ FieldsWithin env plainWords rest w' := by
        intro pid w'
        rw [(closePrev_still _ _).keeps]
        exact ih _ _ _
      constructor
      · intro h
        have hc := hchild.mp h.2.1
        exact ⟨hc, fun w' hw' => (hparent 0 w').mp (h.2.2 0 w' ((hleaves hc w').mpr hw'))⟩
      · rintro ⟨hc, hrest⟩
        refine ⟨⟨trivial, fun _ _ _ => trivial⟩, hchild.mpr hc, fun pid w' hw' => ?_⟩
        exact (hparent pid w').mpr (hrest w' ((hleaves hc w').mp hw'))

theorem runPipeline_keeps (cs : List Str) : (runPipeline cs).Keeps env inBounds w ↔
    cs.length < maxArg ∧ FieldsWithin env plainWords cs w := by
  rw [runPipeline]
  split
  · rename_i hlt
    have hprompt : ∀ w, (printf prompt).Keeps env inBounds w :=
      fun w => ⟨trivial, fun _ _ _ => trivial⟩
    rw [pipeLoop_keeps hprompt, and_iff_right hlt]
  · rename_i hge
    exact iff_of_false id fun h => hge h.1

/-! ### Redirections -/

/-- A redirection that fails is reported, and the command goes on. -/
theorem redirectTo_keeps {α : Type} {redirection : Str} {how : OpenHow}
    (hhow : (redirection = "<".toList ∧ how = inputHow) ∨
      (redirection = ">".toList ∧ how = outputHow)) (file : Option Str) (f : Unit → Prog α) :
    (redirectTo redirection file >>= f).Keeps env inBounds w ↔
      (f ()).Keeps env inBounds ((openIf env how file w).getD w) := by
  cases file with
  | none => rfl
  | some file =>
      have hopen : ∀ new : Int, (do
          let fd ← openFile file how
          (do if fd < 0 then perror file else do dup2 fd new; close fd)
          f ()).Keeps env inBounds w ↔
            (f ()).Keeps env inBounds ((env.openFile w file how).getD w) := by
        intro new
        have hset : ∀ fd : Int, 0 ≤ fd → ∀ w,
            ((if fd < 0 then perror file else do dup2 fd new; close fd) >>= f).Keeps env inBounds w ↔
              (f ()).Keeps env inBounds w := by
          intro fd hfd w
          rw [if_neg (Int.not_lt.mpr hfd)]
          exact ((dup2_still _ _).bind (close_still _)).keeps f w
        constructor
        · intro h
          cases hopen : env.openFile w file how with
          | none => exact (h.2 (-1) w (.inl ⟨hopen, rfl, rfl⟩)).2 () w ⟨trivial, rfl⟩
          | some w' => exact (hset 0 (Int.le_refl 0) w').mp (h.2 0 w' (.inr ⟨hopen, Int.le_refl 0⟩))
        · intro h
          refine ⟨trivial, fun fd w' hfd => ?_⟩
          rcases hfd with ⟨hopen, rfl, rfl⟩ | ⟨hopen, hfd⟩
          · rw [hopen] at h
            refine ⟨trivial, fun _ w' hr => ?_⟩
            obtain ⟨-, rfl⟩ := hr
            exact h
          · rw [hopen] at h
            exact (hset fd hfd w').mpr h
      rcases hhow with ⟨rfl, rfl⟩ | ⟨rfl, rfl⟩
      · exact hopen 0
      · exact hopen 1

theorem runRedirected_keeps (input output : Option Str) (ws : List Str) :
    (runRedirected input output ws).Keeps env inBounds w ↔
      (expand env (opened env input output w) ws).length < maxArg := by
  have hrest : ∀ originalStdin originalStdout, (do
      redirectTo "<".toList input
      redirectTo ">".toList output
      runWords ws
      dup2 originalStdin 0
      dup2 originalStdout 1
      close originalStdin
      close originalStdout
      printf prompt : Prog Unit).Keeps env inBounds w ↔
        (expand env (opened env input output w) ws).length < maxArg := by
    intro originalStdin originalStdout
    rw [redirectTo_keeps (.inl ⟨rfl, rfl⟩), redirectTo_keeps (.inr ⟨rfl, rfl⟩), runWords_keeps]
    refine and_iff_left fun w' _ => ?_
    rw [(dup2_still _ _).keeps, (dup2_still _ _).keeps, (close_still _).keeps,
      (close_still _).keeps]
    exact ⟨trivial, fun _ _ _ => trivial⟩
  constructor
  · intro h
    exact (hrest 0 0).mp ((h.2 0 w ⟨trivial, rfl⟩).2 0 w ⟨trivial, rfl⟩)
  · intro h
    refine ⟨trivial, fun i w' hw' => ?_⟩
    obtain ⟨-, rfl⟩ := hw'
    refine ⟨trivial, fun j w' hw' => ?_⟩
    obtain ⟨-, rfl⟩ := hw'
    exact (hrest i j).mpr h

/-! ## One line -/

/-- What a line below the builtins needs in the directory `w`. -/
def PlainWithin (env : Env W) (w : W) (s : Str) : Prop :=
  if s.contains '<' || s.contains '>' then
    ∃ input output ws, splitRedir (tokens s) none none [] = some (input, output, ws) ∧
      (expand env (opened env input output w) ws).length < maxArg
  else if s.contains ';' then
    FieldsWithin env (expandedWords env) ((fields ';' s).map trimmed) w
  else if s.contains '|' then
    (fields '|' s).length < maxArg ∧ FieldsWithin env plainWords ((fields '|' s).map trimmed) w
  else (expand env w (tokens s)).length < maxArg

/-- What a line needs in the directory `w`. -/
def Within (env : Env W) (w : W) (s : Str) : Prop :=
  (tokens s).length < maxArg ∧ ∀ word ∈ (tokens s).head?,
    eqIgnoreCase word "exit".toList = false → eqIgnoreCase word "listall".toList = false →
      if eqIgnoreCase word "compile".toList then
        ∀ name ∈ (tokens s)[1]?, (expand env w
          ["gcc".toList, name, "-o".toList, name.take (nameLength name)]).length < maxArg
      else PlainWithin env w s

theorem runPlain_keeps (s : Str) :
    (runPlain s).Keeps env inBounds w ↔ PlainWithin env w s := by
  have hprompt : ∀ w, (printf prompt).Keeps env inBounds w :=
    fun w => ⟨trivial, fun _ _ _ => trivial⟩
  rw [runPlain, PlainWithin]
  split
  · cases hsplit : splitRedir (tokens s) none none [] with
    | none =>
        refine iff_of_false id ?_
        rintro ⟨_, _, _, h, -⟩
        cases h
    | some out =>
        obtain ⟨input, output, ws⟩ := out
        refine (runRedirected_keeps input output ws).trans ⟨fun h => ⟨_, _, _, rfl, h⟩, ?_⟩
        rintro ⟨_, _, _, heq, h⟩
        cases heq
        exact h
  · split
    · exact runFields_keeps _ hprompt
    · split
      · rw [runPipeline_keeps, List.length_map]
      · rw [runWords_keeps]
        exact and_iff_left fun w' _ => hprompt w'

/-- `compile` on its own: `main` calls `strlen` on NULL before it expands anything. -/
def BareCompile (s : Str) : Prop :=
  ∃ word, tokens s = [word] ∧ eqIgnoreCase word "compile".toList = true

/-- Otherwise there is a word after it. -/
theorem compile_name {s word : Str} (hbare : ¬ BareCompile s) (hword : (tokens s).head? = some word)
    (hcompile : eqIgnoreCase word "compile".toList = true) :
    ∃ name ts, tokens s = word :: name :: ts := by
  cases htokens : tokens s with
  | nil =>
      rw [htokens] at hword
      cases hword
  | cons first ts =>
      rw [htokens] at hword
      obtain rfl : first = word := Option.some.inj hword
      cases ts with
      | nil => exact absurd ⟨_, htokens, hcompile⟩ hbare
      | cons name ts => exact ⟨name, ts, rfl⟩

theorem runCompile_keeps {ts : List Str} (hts : 2 ≤ ts.length) :
    (runCompile ts).Keeps env inBounds w ↔ ∀ name ∈ ts[1]?, (expand env w
      ["gcc".toList, name, "-o".toList, name.take (nameLength name)]).length < maxArg := by
  match ts, hts with
  | word :: name :: rest, _ =>
      rw [runCompile, runWords_keeps]
      refine (and_iff_left fun w' _ => ⟨trivial, fun _ _ _ => trivial⟩).trans ?_
      simp

/-- A test for a builtin has one answer. -/
theorem strcasecmp_keeps {α : Type} (word t : Str) (f : Bool → Prog α) :
    (strcasecmp (some word) t >>= f).Keeps env inBounds w ↔
      (f (eqIgnoreCase word t)).Keeps env inBounds w := by
  refine Prog.keeps_call trivial fun r w' => and_congr_left fun _ => ?_
  show some (eqIgnoreCase word t) = some r ↔ _
  rw [Option.some.injEq, eq_comm]

theorem runLine_keeps {s : Str} (hbare : ¬ BareCompile s) :
    (runLine s).Keeps env inBounds w ↔ Within env w s := by
  rw [runLine, Within]
  split
  swap
  · rename_i hge
    exact iff_of_false id fun h => hge h.1
  rename_i hroom
  rw [and_iff_right hroom]
  cases hhead : (tokens s).head? with
  | none => exact iff_of_true ⟨trivial, fun _ _ hr => by cases hr.1⟩ fun _ h => by cases h
  | some word =>
      simp only [Option.mem_def, Option.some.injEq, forall_eq']
      rw [strcasecmp_keeps]
      cases hexit : eqIgnoreCase word "exit".toList with
      | true => exact iff_of_true trivial fun h => by cases h
      | false =>
      rw [if_neg Bool.false_ne_true, strcasecmp_keeps]
      cases hlistall : eqIgnoreCase word "listall".toList with
      | true =>
          rw [if_pos rfl, runCommand_keeps]
          exact iff_of_true (fun _ _ => ⟨trivial, fun _ _ _ => trivial⟩) fun _ h => by cases h
      | false =>
      rw [if_neg Bool.false_ne_true, strcasecmp_keeps]
      cases hcompile : eqIgnoreCase word "compile".toList with
      | false =>
          rw [if_neg Bool.false_ne_true, if_neg Bool.false_ne_true, runPlain_keeps]
          exact ⟨fun h _ _ => h, fun h => h rfl rfl⟩
      | true =>
          obtain ⟨name, ts, htokens⟩ := compile_name hbare hhead hcompile
          have htwo : 2 ≤ (tokens s).length := by simp [htokens]
          rw [if_pos rfl, if_pos rfl, runCompile_keeps htwo]
          exact ⟨fun h _ _ => h, fun h => h rfl rfl⟩

/-- As the first line of a session a dangling line reads entries that nothing has
been stored in. -/
theorem dangling_first {chunk s : Str} (hlen : chunk.length < maxLine)
    (hs : command chunk = some s) (hredir : TakesRedir s) (hdangling : Dangling (tokens s)) :
    ∃ l : Locals, l.Ok ∧ ¬ (body l chunk).Keeps env inBounds w := by
  obtain ⟨-, -, -, -, hnul, -⟩ := command_eq_some hs []
  obtain ⟨l, hl, hundef⟩ : ∃ l : Locals, l.Ok ∧ l.argv = List.replicate maxArg .undef :=
    ⟨.zero, Locals.zero_ok, rfl⟩
  refine ⟨l, hl, fun h => ?_⟩
  rcases body_eq hl hlen hs with ⟨hroom, m, argv, hbody, hp⟩ | ⟨-, hbody⟩
  swap
  · rw [hbody] at h
    exact h
  obtain ⟨word, hword⟩ := hdangling.head
  have hscan : redirScan m argv .null .null [] = none := by
    obtain ⟨pin, pout, acc, input, output, hscan, -⟩ := dangling_scan hp hroom hdangling
    rw [hscan, hundef, List.drop_replicate]
    cases maxArg - ((tokens s).length + 1) with
    | zero => rfl
    | succ n => rfl
  -- two calls of `dup`, and then the scan
  have hcase : (redirCase m argv l.expandedArgv).Rel (fun _ _ => True)
      (.call (.dup 0) fun _ => .call (.dup 1) fun _ => .ub : Prog Unit) := by
    rw [redirCase, hscan]
    exact .call _ fun _ _ => .call _ fun _ _ => .ub
  rw [hbody, (dispatch_redir_rel hp hnul hredir hcase).keeps_iff env inBounds w, hword,
    strcasecmp_keeps, strcasecmp_keeps, strcasecmp_keeps] at h
  exact (h.2 0 w ⟨trivial, rfl⟩).2 0 w ⟨trivial, rfl⟩

/-- The stores of a round stay inside the arrays: it comes to the cascade, and from
there on nothing is undefined, in the file systems that it meets. Of a bare
`compile` only the first part counts. -/
def ArraysHold (env : Env W) (w : W) (l : Locals) (chunk s : Str) : Prop :=
  ComesToCascade l chunk s ∧ (¬ BareCompile s → (body l chunk).Keeps env inBounds w)

/-- For every history of the shell all stores stay inside the arrays, exactly when
there is room for the tokens, and for the matches in the directory as it is when
the words are expanded, and no operator of a redirection lacks its file name. -/
theorem arrays_hold_iff {chunk s : Str} (hlen : chunk.length < maxLine)
    (hs : command chunk = some s) :
    (∀ l : Locals, l.Ok → ArraysHold env w l chunk s) ↔ Within env w s := by
  have hrel : ¬ (TakesRedir s ∧ Dangling (tokens s)) → ∀ l : Locals, l.Ok →
      ((body l chunk).Keeps env inBounds w ↔ (runLine s).Keeps env inBounds w) := by
    intro hnamed l hl
    exact (body_rel hl hlen hs fun ht hd => hnamed ⟨ht, hd⟩).keeps_iff env inBounds w
  constructor
  · intro h
    -- any history tells about the line, except that a dangling scan needs the first line
    obtain ⟨l₀, hl₀⟩ : ∃ l : Locals, l.Ok := ⟨.zero, Locals.zero_ok⟩
    obtain ⟨hcascade, hdefined⟩ := h l₀ hl₀
    have hroom := (comesToCascade_iff hl₀ hlen hs).mp hcascade
    by_cases hbare : BareCompile s
    · obtain ⟨word, htokens, hcompile⟩ := hbare
      refine ⟨hroom, fun word' hword' _ _ => ?_⟩
      rw [htokens] at hword' ⊢
      cases hword'
      rw [if_pos hcompile]
      exact fun name hname => by cases hname
    · by_cases hnamed : TakesRedir s ∧ Dangling (tokens s)
      · obtain ⟨l, hl, hnot⟩ := dangling_first hlen hs hnamed.1 hnamed.2
        exact absurd ((h l hl).2 hbare) hnot
      · rw [← runLine_keeps hbare, ← hrel hnamed l₀ hl₀]
        exact hdefined hbare
  · intro h l hl
    refine ⟨(comesToCascade_iff hl hlen hs).mpr h.1, fun hbare => ?_⟩
    refine (hrel (fun hnamed => ?_) l hl).mpr ((runLine_keeps hbare).mpr h)
    -- below the builtins a redirection of the line has its file name
    obtain ⟨hredir, hb⟩ := hnamed.1
    obtain ⟨word, hword⟩ := hnamed.2.head
    have hplain := h.2 word hword (hb word hword _ (by simp [builtins]))
      (hb word hword _ (by simp [builtins]))
    rw [hb word hword "compile".toList (by simp [builtins]), if_neg Bool.false_ne_true,
      PlainWithin, if_pos hredir] at hplain
    obtain ⟨input, output, ws, hsplit, -⟩ := hplain
    rw [Dangling, hsplit] at hnamed
    cases hnamed.2

/-- A directory of `n` files, where a file that is opened with `O_CREAT` is a new one. -/
def numbered : Env Nat where
  glob n pat := if pat = "*".toList ∧ n ≠ 0 then
    some ((List.range n).map fun i => List.replicate (i + 1) 'f') else none
  openFile n _ how := some (if how.creat then n + 1 else n)
  exec _ _ := none
  glob_ne_nil n _ ms h := by
    split_ifs at h with hn
    cases h
    simpa using hn.2
  glob_path n _ ms h := by
    split_ifs at h
    cases h
    simp [NUL]
  glob_plain n pat ms h hname := by
    split_ifs at h with hn
    rw [hn.1] at hname
    exact absurd hname (by decide)

theorem lsOut_within {n : Nat} : Within numbered n "ls * > out".toList ↔ n < 62 := by
  have hsplit : splitRedir (tokens "ls * > out".toList) none none [] =
      some (none, some "out".toList, ["ls".toList, "*".toList]) := by decide
  have hexpand : (expand numbered (n + 1) ["ls".toList, "*".toList]).length = n + 2 := by
    simp [expand, numbered]
  have hplain : PlainWithin numbered n "ls * > out".toList ↔ n < 62 := by
    rw [PlainWithin, if_pos (by decide), hsplit]
    constructor
    · rintro ⟨input, output, ws, hout, hfits⟩
      cases hout
      have hroom : n + 2 < 64 := hexpand ▸ hfits
      omega
    · intro hn
      have hroom : n + 2 < 64 := by omega
      exact ⟨_, _, _, rfl, hexpand.symm ▸ hroom⟩
  constructor
  · intro h
    have hline := h.2 "ls".toList (by decide) (by decide) (by decide)
    rwa [if_neg (by decide), hplain] at hline
  · intro hn
    refine ⟨by decide, fun word hword _ _ => ?_⟩
    obtain rfl : "ls".toList = word := Option.some.inj hword
    rwa [if_neg (by decide), hplain]

/-- The line `ls * > out` has room in a directory of 61 files, where `out` is one match
more, and none in a directory of 62. -/
theorem lsOut_holds :
    (∀ l : Locals, l.Ok → ArraysHold numbered 61 l "ls * > out\n".toList "ls * > out".toList) ∧
    ¬ ∀ l : Locals, l.Ok → ArraysHold numbered 62 l "ls * > out\n".toList "ls * > out".toList := by
  constructor
  · exact (arrays_hold_iff (by decide) (by decide)).mpr (lsOut_within.mpr (by decide))
  · rw [arrays_hold_iff (by decide) (by decide), lsOut_within]
    decide

/-- A line of 64 words `a`. -/
theorem words_overflow : ¬ ∀ l : Locals, l.Ok → ArraysHold (.ofExec fun _ => none) () l
    ((List.replicate 63 "a ".toList).flatten ++ "a\n".toList)
    ((List.replicate 63 "a ".toList).flatten ++ "a".toList) := by
  intro h
  have hcommand : command ((List.replicate 63 "a ".toList).flatten ++ "a\n".toList) =
      some ((List.replicate 63 "a ".toList).flatten ++ "a".toList) := by decide +kernel
  have hroom := (comesToCascade_iff Locals.zero_ok (by decide +kernel) hcommand).mp
    (h .zero Locals.zero_ok).1
  exact absurd hroom (by decide +kernel)

end UnixSys.Shell
