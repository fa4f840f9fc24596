import UnixSys.Shell.Contexts
import UnixSys.Shell.Returns

/-!
# Worded — the shell acts on words

`strcasecmp` and `execvp` should only see a first argument that is there and is
not empty. The policy `actsOnWords` says so, and `never_acts_on_empty` says for which
rounds the shell keeps to it: those whose line has a word wherever the shell takes a
command from it. Such a round launches one command for each field that has a word,
nothing for the empty fields, and goes on to the prompt.
-/

namespace UnixSys.Shell

open Posix

variable {W : Type} {env : Env W} {w : W}

/-- The list has a first word, and the word is not empty. -/
def Worded (ws : List Str) : Prop := ∃ word ∈ ws.head?, word ≠ []

def actsOnWords : Policy where
  mayCall
    | .strcasecmp s _ => ∃ word ∈ s, word ≠ []
    | _ => True
  mayExec := Worded
  mayCrash := False

/-- The line takes the branch for `;`. -/
structure IsSequence (s : Str) : Prop where
  external : External s
  redirected : (s.contains '<' || s.contains '>') = false
  sequenced : s.contains ';' = true

/-- The line takes the branch for `|`. -/
structure IsPipeline (s : Str) : Prop where
  external : External s
  redirected : (s.contains '<' || s.contains '>') = false
  sequenced : s.contains ';' = false
  piped : s.contains '|' = true

/-- There is a word at the start of the line, and in every field that is not empty. -/
structure NamesCommands (s : Str) : Prop where
  line : words s ≠ []
  sequenced : IsSequence s → ∀ f ∈ fields ';' s, words f ≠ []
  piped : IsPipeline s → ∀ f ∈ fields '|' s, words f ≠ []

/-- What a round needs to act on words only: its line names its commands and stays
within the arrays. In the branch for redirections the words are those that the scan
finds. -/
structure Acts (env : Env W) (l : Locals) (w : W) (chunk s : Str) : Prop where
  command : command chunk = some s
  names : NamesCommands s
  bare : ¬ BareCompile s
  redirected : TakesRedir s → ∃ input output ws, ScanFinds l chunk input output ws ∧ Worded ws ∧
    (expand env (opened env input output w) ws).length < maxArg
  within : ¬ TakesRedir s → Within env w s

theorem worded_tokens {s : Str} (h : words s ≠ []) : Worded (tokens s) := by
  obtain ⟨word, ws, hws⟩ := List.exists_cons_of_ne_nil h
  have hmem : word ∈ pieces isBlank s := by
    show word ∈ words s
    rw [hws]
    exact List.mem_cons_self
  refine ⟨word, ?_, (mem_pieces isBlank hmem).1⟩
  rw [tokens, hws]
  rfl

theorem worded_field {f : Str} (h : words f ≠ []) : Worded (tokens (trimmed f)) :=
  worded_tokens (by rwa [words_trimmed])

/-! ## The calls of one line -/

/-- The paths of a word: they are there, and none is empty. -/
theorem worded_paths {word : Str} {r : Option (List Str)} (hr : (Call.glob word).Valid r)
    (h : word ≠ []) : Worded (r.getD [word]) := by
  cases r with
  | none => exact ⟨word, rfl, h⟩
  | some ms =>
      obtain ⟨hne, hms, -⟩ := hr ms rfl
      obtain ⟨path, paths, rfl⟩ := List.exists_cons_of_ne_nil hne
      exact ⟨path, rfl, (hms path List.mem_cons_self).1⟩

theorem Worded.append {ws : List Str} (h : Worded ws) (vs : List Str) : Worded (ws ++ vs) := by
  obtain ⟨word, hword, hne⟩ := h
  refine ⟨word, ?_, hne⟩
  rw [Option.mem_def] at hword ⊢
  rw [List.head?_append, hword]
  rfl

theorem actsOnWords_suits : Suits { actsOnWords with mayCrash := True } Worded where
  crash := trivial
  call c hc := by
    cases c with
    | strcasecmp s t => cases hc
    | _ => trivial
  exec args h := h
  expand acc word ws r hr h := by
    apply Worded.append
    -- the first word is in `acc`, or it is the one that is expanded here
    cases acc with
    | nil =>
        obtain ⟨w, hw, hne⟩ := h
        cases hw
        exact worded_paths hr hne
    | cons first rest =>
        obtain ⟨w, hw, hne⟩ := h
        exact ⟨w, hw, hne⟩

/-- A line that does not get to the redirections. -/
theorem runLine_worded {s : Str} (h : NamesCommands s) (hredir : ¬ TakesRedir s) :
    (runLine s).Obeys { actsOnWords with mayCrash := True } fun _ => True := by
  obtain ⟨word, hword, hne⟩ := worded_tokens h.line
  -- `listall` and `compile` execute words of the shell's own
  refine runLine_obeys actsOnWords_suits (fun b => ⟨word, hword, hne⟩)
    ⟨"ls".toList, rfl, by decide⟩ (fun ws => ⟨"gcc".toList, rfl, by decide⟩) fun hext => ?_
  have hno := hext.not_redirected hredir
  exact runPlain_obeys actsOnWords_suits hno ⟨word, hword, hne⟩
    (fun hseq f hf => worded_field (h.sequenced ⟨hext, hno, hseq⟩ f hf))
    (fun hseq hpipe f hf => worded_field (h.piped ⟨hext, hno, hseq, hpipe⟩ f hf))

theorem runRedirected_worded (input output : Option Str) {ws : List Str} (h : Worded ws) :
    (runRedirected input output ws).Obeys { actsOnWords with mayCrash := True } fun _ => True := by
  have hset : ∀ (file : Str) (fd new : Int), (if fd < 0 then perror file
      else do dup2 fd new; close fd).Obeys { actsOnWords with mayCrash := True }
        fun _ => True := by
    intro file fd new
    split
    · exact ⟨trivial, fun _ _ => trivial⟩
    · exact ⟨trivial, fun _ _ => ⟨trivial, fun _ _ => trivial⟩⟩
  have hfile : ∀ (redirection : Str) (file : Option Str), (redirectTo redirection file).Obeys
      { actsOnWords with mayCrash := True } fun _ => True := by
    intro redirection file
    cases file with
    | none => trivial
    | some file =>
        show (fileRedir redirection file).Obeys _ _
        rw [fileRedir]
        split
        · exact ⟨trivial, fun fd _ => hset file fd 0⟩
        · split
          · exact ⟨trivial, fun fd _ => hset file fd 1⟩
          · trivial
  refine ⟨trivial, fun _ _ => ⟨trivial, fun _ _ => ?_⟩⟩
  refine (hfile _ input).bind fun _ _ => (hfile _ output).bind fun _ _ => ?_
  refine (runWords_obeys actsOnWords_suits h).bind fun _ _ => ?_
  exact ⟨trivial, fun _ _ => ⟨trivial, fun _ _ => ⟨trivial, fun _ _ =>
    ⟨trivial, fun _ _ => ⟨trivial, fun _ _ => trivial⟩⟩⟩⟩⟩

/-- A round that has what it needs acts on words on every path. -/
theorem Acts.keeps {l : Locals} {chunk s : Str} (h : Acts env l w chunk s) (hl : l.Ok)
    (hlen : chunk.length < maxLine) : (body l chunk).Keeps env actsOnWords w := by
  by_cases ht : TakesRedir s
  · obtain ⟨input, output, ws, hscan, hws, hfits⟩ := h.redirected ht
    obtain ⟨word, hword, hne⟩ := worded_tokens h.names.line
    rw [Option.mem_def] at hword
    have hcall : ∀ b, actsOnWords.mayCall (.strcasecmp (some word) b) := fun b => ⟨word, rfl, hne⟩
    rw [(body_scan_rel hl hlen h.command ht hscan).keeps_iff, hword]
    refine Prog.Obeys.keeps (Q := fun _ => True) ?_ ?_
    · refine ⟨hcall "exit".toList, fun _ _ => ⟨hcall "listall".toList, fun _ _ => ?_⟩⟩
      refine ⟨hcall "compile".toList, fun _ _ => ?_⟩
      exact runRedirected_worded input output hws
    · show Prog.Keeps env inBounds _ w
      rw [strcasecmp_keeps, strcasecmp_keeps, strcasecmp_keeps, runRedirected_keeps]
      exact hfits
  · rw [(body_rel hl hlen h.command fun ht' => absurd ht' ht).keeps_iff]
    refine Prog.Obeys.keeps (runLine_worded h.names ht) ?_
    exact (runLine_keeps h.bare).mpr (h.within ht)

/-! ## The prompt -/

theorem expandWords_emits (ws acc : List Str) (u : Str) : (expandWords ws acc).Emits u u := by
  induction ws generalizing acc with
  | nil =>
      rw [expandWords]
      split
      · rfl
      · trivial
  | cons word ws ih =>
      rw [expandWords]
      intro r hr
      show Prog.Emits (if _ then _ else _) (u ++ []) u
      rw [List.append_nil]
      split
      · exact ih _
      · trivial

theorem runWords_emits (ws : List Str) (u : Str) : (runWords ws).Emits u u :=
  (expandWords_emits ws [] u).bind fun _ => ⟨fun _ _ => trivial, fun _ => rfl⟩

theorem printf_emits (text u : Str) : (printf text).Emits u (u ++ text) := fun _ _ => rfl

/-- A call that prints nothing. -/
theorem call_emits {c : Call} (hc : c.text = []) (u : Str) :
    (Prog.call c fun _ => .ret ()).Emits u u := by
  intro r hr
  rw [hc, List.append_nil]
  rfl

theorem runFields_emits (fs : List Str) (u : Str) : (runFields fs).Emits u u := by
  induction fs with
  | nil => rfl
  | cons f fs ih =>
      have hfield : (runField f).Emits u u := by
        rw [runField]
        split
        · exact runWords_emits _ u
        · trivial
      exact hfield.bind fun _ => ih

theorem runPipeline_emits (cs : List Str) (u : Str) : (runPipeline cs).Emits u (u ++ prompt) := by
  have hprev : ∀ (i : Nat) (prevPfd : Int × Int), (closePrev i prevPfd).Emits u u := by
    intro i prevPfd
    rw [closePrev]
    split
    · exact (call_emits rfl u).bind fun _ => call_emits rfl u
    · rfl
  have hpipe : ∀ (last : Bool) (pfd : Int × Int), (newPipe last pfd).Emits u u := by
    intro last pfd
    cases last with
    | true => rfl
    | false =>
        intro r hr
        cases r with
        | none => exact fun _ _ => trivial
        | some pfd => exact (List.append_nil u).symm
  have hloop : ∀ (i : Nat) (pfd prevPfd : Int × Int),
      (pipeLoop runStage (printf prompt) cs i pfd prevPfd).Emits u (u ++ prompt) := by
    induction cs with
    | nil => exact fun _ _ _ => printf_emits prompt u
    | cons c rest ih =>
        intro i pfd prevPfd
        rw [pipeLoop]
        refine (hpipe _ _).bind fun pfd => ⟨fun _ _ => trivial, fun pid => ?_⟩
        exact (hprev i prevPfd).bind fun _ => ih _ _ _
  rw [runPipeline]
  split
  · exact hloop 0 _ _
  · trivial

theorem redirectTo_emits (redirection : Str) (file : Option Str) (u : Str) :
    (redirectTo redirection file).Emits u u := by
  have hset : ∀ (file : Str) (fd new : Int), (if fd < 0 then perror file
      else do dup2 fd new; close fd).Emits u u := by
    intro file fd new
    split
    · exact call_emits rfl u
    · exact (call_emits rfl u).bind fun _ => call_emits rfl u
  have hopen : ∀ (file : Str) (how : OpenHow) (new : Int), (do
      let fd ← openFile file how
      if fd < 0 then perror file else do dup2 fd new; close fd : Prog Unit).Emits u u := by
    intro file how new fd _
    show Prog.Emits _ (u ++ []) u
    rw [List.append_nil]
    exact hset file fd new
  cases file with
  | none => rfl
  | some file =>
      show (fileRedir redirection file).Emits u u
      rw [fileRedir]
      split
      · exact hopen file _ 0
      · split
        · exact hopen file _ 1
        · rfl

theorem runRedirected_emits (input output : Option Str) (ws : List Str) (u : Str) :
    (runRedirected input output ws).Emits u (u ++ prompt) := by
  have hdup : ∀ fd, (dup fd).Emits u u := fun fd r _ => (List.append_nil u).symm
  refine (hdup 0).bind fun _ => (hdup 1).bind fun _ => ?_
  refine (redirectTo_emits _ input u).bind fun _ => (redirectTo_emits _ output u).bind fun _ => ?_
  refine (runWords_emits ws u).bind fun _ => ?_
  refine (call_emits rfl u).bind fun _ => (call_emits rfl u).bind fun _ => ?_
  exact (call_emits rfl u).bind fun _ => (call_emits rfl u).bind fun _ => printf_emits prompt u

/-- The test for a builtin prints nothing. -/
theorem strcasecmp_emits (word : Option Str) (t u : Str) : (strcasecmp word t).Emits u u :=
  fun _ _ => (List.append_nil u).symm

/-- A line that comes back has printed one prompt. -/
theorem runLine_emits (s u : Str) : (runLine s).Emits u (u ++ prompt) := by
  have hprompt : ∀ ws, (do runWords ws; printf prompt : Prog Unit).Emits u (u ++ prompt) :=
    fun ws => (runWords_emits ws u).bind fun _ => printf_emits prompt u
  rw [runLine]
  split
  swap
  · trivial
  refine (strcasecmp_emits _ _ u).bind fun isExit => ?_
  split
  · trivial
  refine (strcasecmp_emits _ _ u).bind fun isListall => ?_
  split
  · exact Prog.Emits.bind (t := u) ⟨fun _ _ => trivial, fun _ => rfl⟩ fun _ => printf_emits prompt u
  refine (strcasecmp_emits _ _ u).bind fun isCompile => ?_
  split
  · rw [runCompile.eq_def]
    split
    · exact hprompt _
    · trivial
  rw [runPlain]
  split
  · split
    · exact runRedirected_emits _ _ _ u
    · trivial
  · split
    · exact (runFields_emits _ u).bind fun _ => printf_emits prompt u
    · split
      · exact runPipeline_emits _ u
      · exact hprompt _

/-! ## What a round launches -/

/-- The words of each field of the line that has one. -/
def fieldWords (d : Byte) (s : Str) : List (List Str) :=
  ((s.splitOnP (· = d)).filter fun f => words f ≠ []).map fun f => tokens (trimmed f)

/-- What the shell makes of the line `s`: `exit` leaves the loop, and any other line comes
back with one prompt. Between `;` and between `|` a command is executed for each
field with a word, one after the other; other lines execute one command. -/
structure LoopRound.GoesOn (env : Env W) (r : LoopRound W) (s : Str) : Prop where
  exits : isExit s = true → (r.run env).observed = ([], .exited 0)
  returns : isExit s = false →
    (r.run env).Returns ∧ (r.run env).ctx.buf = r.ctx.buf ++ prompt
  sequenced : IsSequence s →
    ((r.run env).executed.map fun e => e.globs.map Prod.fst) = fieldWords ';' s
  piped : IsPipeline s →
    ((r.run env).executed.map fun e => e.globs.map Prod.fst) = fieldWords '|' s
  single : isExit s = false → ¬ IsSequence s → ¬ IsPipeline s →
    (r.run env).launches.length = 1

/-- Without blank fields only the empty ones have no word. -/
theorem fieldWords_eq {d : Byte} {s : Str} (h : ∀ f ∈ fields d s, words f ≠ []) :
    fieldWords d s = ((fields d s).map trimmed).map tokens := by
  have hfields : ((s.splitOnP (· = d)).filter fun f => words f ≠ []) = fields d s := by
    refine List.filter_congr fun f hf => ?_
    cases f with
    | nil => rfl
    | cons c f =>
        have hword := h (c :: f) (List.mem_filter.mpr ⟨hf, rfl⟩)
        simpa using hword
  rw [fieldWords, hfields, List.map_map]
  rfl

theorem FieldsExecuted.patterns {args : W → Str → List Str} {cs : List Str} {es : List Executed}
    (h : FieldsExecuted env args cs w es) :
    (es.map fun e => e.globs.map Prod.fst) = cs.map tokens := by
  induction cs generalizing w es with
  | nil =>
      obtain rfl : es = [] := h
      rfl
  | cons c cs ih =>
      obtain ⟨l, w', rest, rfl, -, -, hrest⟩ := h
      rw [List.map_cons, List.map_cons, ih hrest]
      exact congrArg (· :: _) (globbed_words w (tokens c))

theorem NamesCommands.head {s : Str} (h : NamesCommands s) :
    ∃ word, (tokens s).head? = some word := by
  obtain ⟨word, hword, -⟩ := worded_tokens h.line
  exact ⟨word, hword⟩

/-- Lines that are neither sequences nor pipelines. -/
theorem runLine_single {s : Str} {x : Ctx W} (hwithin : Within env x.world s)
    (hbare : ¬ BareCompile s) (ht : ¬ TakesRedir s) {word : Str}
    (hword : (tokens s).head? = some word) (hexit : isExit s = false) (hseq : ¬ IsSequence s)
    (hpipe : ¬ IsPipeline s) : ((runLine s).run env x).launches.length = 1 := by
  rw [isExit_eq hword] at hexit
  by_cases hlistall : eqIgnoreCase word "listall".toList = true
  · obtain ⟨y, hpass⟩ := listall_passes hwithin.1 hword hlistall env x
    rw [hpass.launches]
    rfl
  have hneeds := hwithin.2 word hword hexit (by simpa using hlistall)
  by_cases hcompile : eqIgnoreCase word "compile".toList = true
  · rw [if_pos hcompile] at hneeds
    obtain ⟨hcmp₁, hcmp₂, hcmp₃⟩ := compile_cascade hcompile env x
    obtain ⟨name, ts, htokens⟩ := compile_name hbare hword hcompile
    obtain ⟨launch, y, hrun⟩ : ∃ launch y, (runCompile (tokens s)).Passes env x [launch] () y := by
      rw [htokens]
      exact ⟨_, _, (runWords_passes (hneeds name (by rw [htokens]; rfl))).bind
        (printf_passes prompt _)⟩
    rw [runLine, if_pos hwithin.1, hword, (hcmp₁.bind (hcmp₂.bind (hcmp₃.bind hrun))).launches]
    rfl
  rw [if_neg hcompile] at hneeds
  have hext : External s :=
    ⟨word, hword, forall_builtins.mpr ⟨hexit, by simpa using hlistall, by simpa using hcompile⟩⟩
  have hredir := hext.not_redirected ht
  have hnoseq : s.contains ';' = false := by
    rw [← Bool.not_eq_true]
    exact fun hin => hseq ⟨hext, hredir, hin⟩
  have hnopipe : s.contains '|' = false := by
    rw [← Bool.not_eq_true]
    exact fun hin => hpipe ⟨hext, hredir, hnoseq, hin⟩
  rw [PlainWithin, hredir, hnoseq, hnopipe] at hneeds
  obtain ⟨launch, y, hrun⟩ : ∃ launch y, (runPlain s).Passes env x [launch] () y := by
    rw [runPlain, hredir, hnoseq, hnopipe]
    exact ⟨_, _, (runWords_passes (by simpa using hneeds)).bind (printf_passes prompt _)⟩
  rw [(runLine_passes hwithin.1 hext hrun).launches]
  rfl

section
variable {l : Locals} {chunk s : Str} {x : Ctx W} (h : Acts env l x.world chunk s)
include h

/-- `exit` is no line with redirections. -/
theorem Acts.not_redirected (hexit : isExit s = true) : ¬ TakesRedir s := by
  obtain ⟨word, hword⟩ := h.names.head
  intro ht
  rw [isExit_eq hword, ht.2 word hword _ (by simp [builtins])] at hexit
  cases hexit

theorem Acts.within_of (hredir : (s.contains '<' || s.contains '>') = false) :
    Within env x.world s := by
  refine h.within fun ht => ?_
  rw [TakesRedir, hredir] at ht
  cases ht.1

variable (hl : l.Ok) (hlen : chunk.length < maxLine)
include hl hlen

theorem Acts.emits : (body l chunk).Emits [] prompt := by
  by_cases ht : TakesRedir s
  · obtain ⟨input, output, ws, hscan, -⟩ := h.redirected ht
    refine (body_scan_rel hl hlen h.command ht hscan).emits ?_
    refine (strcasecmp_emits _ _ []).bind fun _ => (strcasecmp_emits _ _ []).bind fun _ => ?_
    exact (strcasecmp_emits _ _ []).bind fun _ => runRedirected_emits input output ws []
  · exact (body_rel hl hlen h.command fun ht' => absurd ht' ht).emits (runLine_emits s [])

theorem Acts.returns (hexit : isExit s = false) : ((body l chunk).run env x).Returns := by
  by_cases ht : TakesRedir s
  · obtain ⟨input, output, ws, hscan, -, hfits⟩ := h.redirected ht
    exact (redirected_returns hl hlen h.command (hscan.room hl hlen h.command) ht).mpr
      ⟨input, output, ws, hscan, hfits⟩
  · obtain ⟨word, hword⟩ := h.names.head
    exact (body_returns_iff hl hlen h.command).mpr
      ((h.within ht).comesBack hl hlen h.command hword hexit h.bare)

theorem Acts.single (hexit : isExit s = false) (hseq : ¬ IsSequence s) (hpipe : ¬ IsPipeline s) :
    ((body l chunk).run env x).launches.length = 1 := by
  by_cases ht : TakesRedir s
  · obtain ⟨input, output, ws, hscan, -, hfits⟩ := h.redirected ht
    obtain ⟨launch, y, hshows, -⟩ := runRedirected_shows input output x hfits
    rw [(body_scan_rel hl hlen h.command ht hscan).launches_eq,
      (ht.external.cascade_passes hshows.passes).launches, launches_events]
    rfl
  · obtain ⟨word, hword⟩ := h.names.head
    rw [(body_rel hl hlen h.command fun ht' => absurd ht' ht).launches_eq]
    exact runLine_single (h.within ht) h.bare ht hword hexit hseq hpipe

end

/-- A round that has what it needs goes on. -/
theorem Acts.goesOn {r : LoopRound W} {s : Str} (h : Acts env r.locals r.ctx.world r.chunk s)
    (hl : r.locals.Ok) (hlen : r.chunk.length < maxLine) : r.GoesOn env s where
  exits hexit := by
    obtain ⟨word, hword⟩ := h.names.head
    have ht := h.not_redirected hexit
    rw [isExit_eq hword] at hexit
    rw [LoopRound.run, (body_rel hl hlen h.command fun ht' => absurd ht' ht).observed_eq, runLine,
      if_pos (h.within ht).1, hword, (strcasecmp_passes word _ _).observed_bind, if_pos hexit]
    rfl
  returns hexit := by
    have hret := h.returns hl hlen hexit
    exact ⟨hret, (h.emits hl hlen).run hret (List.append_nil _).symm⟩
  sequenced hseq := by
    have hrun := sequenced_executed hl hseq.external h.command hlen (h.within_of hseq.redirected)
      hseq.redirected hseq.sequenced
    rw [fieldWords_eq (h.names.sequenced hseq)]
    exact hrun.patterns
  piped hpipe := by
    have hrun := piped_executed hl hpipe.external h.command hlen (h.within_of hpipe.redirected)
      hpipe.redirected hpipe.sequenced hpipe.piped
    rw [fieldWords_eq (h.names.piped hpipe)]
    exact hrun.patterns
  single := h.single hl hlen

/-- Where all rounds that begin have what they need, the shell acts on words on every
path, so that all events of a run are allowed, and each round of the run goes on. -/
theorem never_acts_on_empty {stream : Str} {l : Locals} (hl : l.Ok) (env : Env W) (x : Ctx W)
    (h : ∀ chunk l' w', Begins env (chunks stream) l x.world chunk l' w' →
      ∃ s, Acts env l' w' chunk s) :
    (readLoop (chunks stream) l).Keeps env actsOnWords x.world ∧
    (∀ e ∈ ((readLoop (chunks stream) l).run env x).log, e.Allowed actsOnWords) ∧
    ∀ r ∈ rounds env (chunks stream) l x, ∃ s, command r.chunk = some s ∧ r.GoesOn env s := by
  have hok : ∀ {chunk l' w'}, Begins env (chunks stream) l x.world chunk l' w' →
      l'.Ok ∧ chunk.length < maxLine := by
    intro chunk l' w' hbegins
    obtain ⟨hok, hmem⟩ := hbegins.ok hl fun c hc => length_of_mem_chunks hc
    exact ⟨hok, length_of_mem_chunks (mem_of_mem_upTo hmem)⟩
  have hkeeps : (readLoop (chunks stream) l).Keeps env actsOnWords x.world := by
    refine readLoop_keeps fun chunk l' w' hbegins => ?_
    obtain ⟨s, hacts⟩ := h chunk l' w' hbegins
    exact hacts.keeps (hok hbegins).1 (hok hbegins).2
  refine ⟨hkeeps, hkeeps.run, fun r hr => ?_⟩
  have hbegins := begins_of_mem_rounds hr
  obtain ⟨s, hacts⟩ := h _ _ _ hbegins
  exact ⟨s, hacts.command, hacts.goesOn (hok hbegins).1 (hok hbegins).2⟩

/-- The line `ls | wc` in a directory where no pattern matches. -/
theorem stages_within : Within (.ofExec fun _ => none) () "ls | wc".toList := by
  refine ⟨by decide, fun word hword _ _ => ?_⟩
  obtain rfl : "ls".toList = word := Option.some.inj hword
  rw [if_neg (by decide), PlainWithin, if_neg (by decide), if_neg (by decide),
    if_pos (by decide),
    show (fields '|' "ls | wc".toList).map trimmed = ["ls".toList, "wc".toList] by decide]
  exact ⟨by decide, ⟨by decide, by decide⟩, fun _ _ =>
    ⟨⟨by decide, (by decide : ["wc".toList].length < maxArg)⟩, fun _ _ => trivial⟩⟩

/-- Lines with an empty field between `;`, with a `|` and with a `<`, an `exit`, and an empty
line that is never read. -/
theorem lines_worded : (readLoop (chunks "ls -l;;wc\nls | wc\ncat < f\nexit\n\n".toList)
      .zero).Keeps (.ofExec fun _ => none) actsOnWords () ∧
    (∀ e ∈ ((readLoop (chunks "ls -l;;wc\nls | wc\ncat < f\nexit\n\n".toList) .zero).run
      (.ofExec fun _ => none) .terminal).log, e.Allowed actsOnWords) ∧
    ∀ r ∈ rounds (.ofExec fun _ => none)
        (chunks "ls -l;;wc\nls | wc\ncat < f\nexit\n\n".toList) .zero .terminal,
      ∃ s, command r.chunk = some s ∧ r.GoesOn (.ofExec fun _ => none) s := by
  have hchunks : upTo exits (chunks "ls -l;;wc\nls | wc\ncat < f\nexit\n\n".toList) =
      ["ls -l;;wc\n".toList, "ls | wc\n".toList, "cat < f\n".toList, "exit\n".toList] := by
    decide
  refine never_acts_on_empty Locals.zero_ok _ .terminal fun chunk l w hbegins => ?_
  obtain ⟨hok, hmem⟩ := hbegins.ok Locals.zero_ok fun c hc => length_of_mem_chunks hc
  rw [hchunks] at hmem
  simp only [List.mem_cons, List.not_mem_nil, or_false] at hmem
  have hredir : ∀ {s : Str}, (s.contains '<' || s.contains '>') = false → ¬ TakesRedir s := by
    intro s hno ht
    rw [TakesRedir, hno] at ht
    cases ht.1
  rcases hmem with rfl | rfl | rfl | rfl
  · refine ⟨"ls -l;;wc".toList, by decide, ⟨by decide, fun _ => by decide, fun h => ?_⟩, ?_,
      fun ht => absurd ht (hredir (by decide)), fun _ => fields_within⟩
    · exact absurd h.piped (by decide)
    · rintro ⟨_, hone, -⟩
      cases hone
  · refine ⟨"ls | wc".toList, by decide, ⟨by decide, fun h => ?_, fun _ => by decide⟩, ?_,
      fun ht => absurd ht (hredir (by decide)), fun _ => stages_within⟩
    · exact absurd h.sequenced (by decide)
    · rintro ⟨_, hone, -⟩
      cases hone
  · refine ⟨"cat < f".toList, by decide, ⟨by decide, fun h => ?_, fun h => ?_⟩, ?_,
      fun _ => ?_, fun ht => absurd ?_ ht⟩
    · exact absurd h.sequenced (by decide)
    · exact absurd h.piped (by decide)
    · rintro ⟨_, hone, -⟩
      cases hone
    · exact ⟨some "f".toList, none, ["cat".toList], scanFinds_of_split hok (by decide)
        (by decide : command _ = some "cat < f".toList) (by decide) (by decide),
        ⟨_, rfl, by decide⟩, (by decide : ["cat".toList].length < maxArg)⟩
    · refine ⟨by decide, fun word hword => ?_⟩
      obtain rfl : "cat".toList = word := Option.some.inj hword
      decide
  · refine ⟨"exit".toList, by decide, ⟨by decide, fun h => ?_, fun h => ?_⟩, ?_,
      fun ht => absurd ht (hredir (by decide)), fun _ => ⟨by decide, fun word hword hexit => ?_⟩⟩
    · exact absurd h.sequenced (by decide)
    · exact absurd h.piped (by decide)
    · rintro ⟨word, hone, hcompile⟩
      obtain rfl : "exit".toList = word := (List.cons.inj hone).1
      exact absurd hcompile (by decide)
    · obtain rfl : "exit".toList = word := Option.some.inj hword
      exact absurd hexit (by decide)

/-- On an empty line `strcasecmp` is called on NULL. -/
theorem empty_line_null : ¬ ∀ e ∈ ((readLoop (chunks "\n".toList) .zero).run
    (.ofExec fun _ => none) .terminal).log, e.Allowed actsOnWords := by
  intro h
  have hchunks : chunks "\n".toList = ["\n".toList] := by decide
  have hbody : (body .zero "\n".toList).Rel RoundOk (runLine []) :=
    body_rel Locals.zero_ok (by decide) (by decide) fun ht => absurd ht.1 (by decide)
  have hloop : (readLoop (chunks "\n".toList) .zero).Rel (fun _ _ => True)
      (do runLine []; pure ()) := by
    rw [hchunks]
    exact hbody.bind fun _ _ _ => .ret trivial
  have hlog := (hloop.run (.ofExec fun _ => none) .terminal).log
  have hline : ((do runLine []; pure () : Prog Unit).run (.ofExec fun _ => none) .terminal).log =
      [.call (.strcasecmp none "exit".toList) none] := by
    rw [runLine, tokens_nil, if_pos (by decide)]
    rfl
  rw [hlog, hline] at h
  obtain ⟨word, hword, -⟩ := h _ List.mem_cons_self
  cases hword

end UnixSys.Shell
