import UnixSys.Shell.Capacity
import UnixSys.Shell.Rounds

/-!
# Returns — when a round comes back, and which lines the loop parses

A round of the read loop that runs into undefined behaviour is the last one, and
the lines behind it are never parsed. `ComesBack` is the exact condition for a round
to come back to `fgets`; with it, and where every line has its newline and fits the
buffer, the strings that the loop parses are the lines of the stream.
-/

namespace UnixSys.Shell

open Posix

variable {W : Type} {env : Env W} {x : Ctx W}

/-! ## Rounds that come back -/

/-- What the fields of a `;` line need, executed one after the other from `x`. -/
def FieldsBack (env : Env W) : List Str → Ctx W → Prop
  | [], _ => True
  | f :: fs, x => (tokens (trimmed f)).length < maxArg ∧
      (expand env x.world (tokens (trimmed f))).length < maxArg ∧
      FieldsBack env fs (x.ran env (expand env x.world (tokens (trimmed f))))

/-- What a line needs below the builtins. The stages of a pipeline are children,
and a child that crashes does not keep the shell from going on. -/
def PlainBack (env : Env W) (l : Locals) (x : Ctx W) (chunk s : Str) : Prop :=
  if s.contains '<' || s.contains '>' then
    ∃ input output ws, ScanFinds l chunk input output ws ∧
      (expand env (opened env input output x.world) ws).length < maxArg
  else if s.contains ';' then FieldsBack env (fields ';' s) x
  else if s.contains '|' then (fields '|' s).length < maxArg
  else (expand env x.world (tokens s)).length < maxArg

/-- What a round needs to come back. -/
def ComesBack (env : Env W) (l : Locals) (x : Ctx W) (chunk s : Str) : Prop :=
  (tokens s).length < maxArg ∧ ∃ word ∈ (tokens s).head?,
    eqIgnoreCase word "exit".toList = false ∧
    (eqIgnoreCase word "listall".toList = true ∨
      if eqIgnoreCase word "compile".toList then
        ∃ name ∈ (tokens s)[1]?, (expand env x.world
          ["gcc".toList, name, "-o".toList, name.take (nameLength name)]).length < maxArg
      else PlainBack env l x chunk s)

theorem runWords_returns {ws : List Str} (f : Unit → Prog Unit) :
    ((runWords ws >>= f).run env x).Returns ↔ (expand env x.world ws).length < maxArg ∧
      ((f ()).run env (x.ran env (expand env x.world ws))).Returns := by
  by_cases hfits : (expand env x.world ws).length < maxArg
  · rw [(runWords_passes hfits).returns_bind, and_iff_right hfits]
  · have hcrash : (runWords ws).Crashes env x [] := runWords_crashes (Nat.not_lt.mp hfits)
    exact iff_of_false (hcrash.bind f).not_returns fun h => hfits h.1

theorem prompt_returns (x : Ctx W) : ((printf prompt).run env x).Returns :=
  (printf_passes prompt x).returns

theorem runFields_returns (fs : List Str) :
    ((do runFields fs; printf prompt : Prog Unit).run env x).Returns ↔ FieldsBack env fs x := by
  induction fs generalizing x with
  | nil => exact iff_of_true (prompt_returns x) trivial
  | cons f fs ih =>
      rw [runFields, Prog.bind_bind, runField, FieldsBack]
      split
      · rename_i hlen
        rw [runWords_returns, and_iff_right hlen, ih]
      · rename_i hlen
        exact iff_of_false (Prog.not_returns_ub x) fun h => hlen h.1

/-- A stage comes to its end, or crashes. -/
theorem runStage_ended (c : Str) (x : Ctx W) : ∃ ss y, (runStage c).EndsShowing env x ss y := by
  by_cases hlen : (tokens c).length < maxArg
  swap
  · rw [runStage, if_neg hlen]
    exact ⟨[], x, [], rfl, fun _ => ⟨rfl, rfl⟩⟩
  by_cases hfits : (expand env x.world (tokens c)).length < maxArg
  · obtain ⟨y, hy, -⟩ := runStage_ends hlen hfits
    exact ⟨_, y, hy⟩
  · -- the child crashes while it expands, and the shell waits for it all the same
    have hcrash : (expandWords (tokens c) []).Crashes env x [] :=
      expandWords_crashes (by simpa using hfits)
    obtain ⟨log, y, -, hrun⟩ := hcrash.bind fun _ => do execvp (tokens c); printf execFailed; exit 1
    rw [runStage, if_pos hlen]
    exact ⟨_, y, log, rfl, fun f => by rw [hrun f]; exact ⟨rfl, rfl⟩⟩

theorem runPipeline_returns (cs : List Str) :
    ((runPipeline cs).run env x).Returns ↔ cs.length < maxArg := by
  rw [runPipeline]
  split
  · rename_i hlen
    have hstage : ∀ (c : Str) (x : Ctx W), ∃ ss y, (runStage c).EndsShowing env x ss y ∧ True ∧
        ∀ ss' : List Event, True → True := by
      intro c x
      obtain ⟨ss, y, hends⟩ := runStage_ended c x
      exact ⟨ss, y, hends, trivial, fun _ _ => trivial⟩
    obtain ⟨_, y, hshows, -⟩ := pipeLoop_shows (P := fun _ _ => True) (T := fun _ _ _ => True)
      (fun _ => trivial) (fun {c _ x} _ => hstage c x) (printf_silent prompt) 0 (-1, -1) (-1, -1)
      trivial
    exact iff_of_true hshows.passes.returns hlen
  · rename_i hlen
    exact iff_of_false (Prog.not_returns_ub x) hlen

theorem runRedirected_returns (input output : Option Str) (ws : List Str) :
    ((runRedirected input output ws).run env x).Returns ↔
      (expand env (opened env input output x.world) ws).length < maxArg := by
  by_cases hfits : (expand env (opened env input output x.world) ws).length < maxArg
  · obtain ⟨l, y, hshows, -⟩ := runRedirected_shows input output x hfits
    exact iff_of_true hshows.passes.returns hfits
  · refine iff_of_false ?_ hfits
    obtain ⟨originalStdin, x₁, h₁, hx₁⟩ := dup_silent env 0 x
    obtain ⟨originalStdout, x₂, h₂, hx₂⟩ := dup_silent env 1 x₁
    obtain ⟨x₃, x₄, h₃, h₄, hx₄⟩ := redirectTo_shows env input output x₂
    -- the words are expanded in the directory that the opened files leave
    rw [hx₂, hx₁] at hx₄
    rw [← hx₄] at hfits
    rw [runRedirected, h₁.passes.returns_bind, h₂.passes.returns_bind, h₃.passes.returns_bind,
      h₄.passes.returns_bind, runWords_returns]
    exact fun h => hfits h.1

theorem runCompile_returns (ts : List Str) : ((runCompile ts).run env x).Returns ↔
    ∃ name ∈ ts[1]?, (expand env x.world
      ["gcc".toList, name, "-o".toList, name.take (nameLength name)]).length < maxArg := by
  have hbare : ∀ ts : List Str, ts[1]? = none → runCompile ts = .ub →
      (((runCompile ts).run env x).Returns ↔ ∃ name ∈ ts[1]?, (expand env x.world
        ["gcc".toList, name, "-o".toList, name.take (nameLength name)]).length < maxArg) := by
    intro ts hname hub
    rw [hub, hname]
    refine iff_of_false (Prog.not_returns_ub x) ?_
    rintro ⟨name, hname, -⟩
    cases hname
  cases ts with
  | nil => exact hbare [] rfl rfl
  | cons word ts =>
      cases ts with
      | nil => exact hbare [word] rfl rfl
      | cons name ts =>
          rw [runCompile, runWords_returns, and_iff_left (prompt_returns _)]
          simp

/-! ## The cascade -/

section
variable {l : Locals} {chunk s : Str}

theorem cascade_returns (hs : External s) (q : Prog Unit) : ((do
      let _ ← strcasecmp (tokens s).head? "exit".toList
      let _ ← strcasecmp (tokens s).head? "listall".toList
      let _ ← strcasecmp (tokens s).head? "compile".toList
      q).run env x).Returns ↔ (q.run env x).Returns := by
  obtain ⟨word, hword, hcmp⟩ := hs.cascade env x
  rw [hword, (hcmp _ (by simp [builtins])).passes.returns_bind,
    (hcmp _ (by simp [builtins])).passes.returns_bind,
    (hcmp _ (by simp [builtins])).passes.returns_bind]

/-- A line that does not get to the redirections. -/
theorem runLine_returns (ht : ¬ TakesRedir s) :
    ((runLine s).run env x).Returns ↔ ComesBack env l x chunk s := by
  rw [runLine, ComesBack]
  split
  swap
  · rename_i hge
    exact iff_of_false (Prog.not_returns_ub x) fun h => hge h.1
  rename_i hroom
  rw [and_iff_right hroom]
  cases hword : (tokens s).head? with
  | none =>
      refine iff_of_false (by rintro ⟨a, ha⟩; cases ha) ?_
      rintro ⟨_, h, -⟩
      cases h
  | some word =>
  simp only [Option.mem_def, Option.some.injEq, exists_eq_left']
  rw [(strcasecmp_passes word _ x).returns_bind]
  cases hexit : eqIgnoreCase word "exit".toList with
  | true => exact iff_of_false (by rintro ⟨a, ha⟩; cases ha) fun h => by cases h.1
  | false =>
  rw [if_neg Bool.false_ne_true, and_iff_right rfl, (strcasecmp_passes word _ x).returns_bind]
  cases hlistall : eqIgnoreCase word "listall".toList with
  | true =>
      rw [if_pos rfl, (runCommand_passes _ x).returns_bind]
      exact iff_of_true (prompt_returns _) (.inl rfl)
  | false =>
  rw [if_neg Bool.false_ne_true, (strcasecmp_passes word _ x).returns_bind, or_iff_right
    Bool.false_ne_true]
  cases hcompile : eqIgnoreCase word "compile".toList with
  | true =>
      rw [if_pos rfl, if_pos rfl]
      exact runCompile_returns (tokens s)
  | false =>
  rw [if_neg Bool.false_ne_true, if_neg Bool.false_ne_true, runPlain, PlainBack]
  have hext : External s := ⟨word, hword, forall_builtins.mpr ⟨hexit, hlistall, hcompile⟩⟩
  rw [hext.not_redirected ht, if_neg Bool.false_ne_true, if_neg Bool.false_ne_true]
  split
  · exact runFields_returns _
  · split
    · rw [runPipeline_returns, List.length_map]
    · rw [runWords_returns]
      exact and_iff_left (prompt_returns _)

theorem redirected_returns (hl : l.Ok) (hlen : chunk.length < maxLine)
    (hs : command chunk = some s) (hroom : (tokens s).length < maxArg) (ht : TakesRedir s) :
    ((body l chunk).run env x).Returns ↔ ∃ input output ws, ScanFinds l chunk input output ws ∧
      (expand env (opened env input output x.world) ws).length < maxArg := by
  have hback : ∀ {input output : Option Str} {ws : List Str},
      ScanFinds l chunk input output ws → (((body l chunk).run env x).Returns ↔
        (expand env (opened env input output x.world) ws).length < maxArg) := by
    intro input output ws hscan
    rw [(body_scan_rel hl hlen hs ht hscan).returns_iff, cascade_returns ht.external,
      runRedirected_returns]
  constructor
  · intro h
    by_cases hscan : ∃ input output ws, ScanFinds l chunk input output ws
    · obtain ⟨input, output, ws, hscan⟩ := hscan
      exact ⟨input, output, ws, hscan, (hback hscan).mp h⟩
    · -- the scan reads an entry that was never stored, before anything is expanded
      exfalso
      simp only [not_exists] at hscan
      obtain ⟨input, hrel⟩ := body_unfound_rel hl hlen hs hroom ht hscan
      obtain ⟨_, x₁, h₁, -⟩ := dup_silent env 0 x
      obtain ⟨_, x₂, h₂, -⟩ := dup_silent env 1 x₁
      obtain ⟨x₃, -, h₃, -⟩ := redirectTo_shows env input none x₂
      rw [hrel.returns_iff, cascade_returns ht.external, h₁.passes.returns_bind,
        h₂.passes.returns_bind, h₃.passes.returns_bind] at h
      exact Prog.not_returns_ub x₃ h
  · rintro ⟨input, output, ws, hscan, hfits⟩
    exact (hback hscan).mpr hfits

/-- A round comes back exactly when its line has what it needs. -/
theorem body_returns_iff (hl : l.Ok) (hlen : chunk.length < maxLine)
    (hs : command chunk = some s) :
    ((body l chunk).run env x).Returns ↔ ComesBack env l x chunk s := by
  by_cases ht : TakesRedir s
  swap
  · rw [(body_rel hl hlen hs fun h => absurd h ht).returns_iff, runLine_returns ht]
  by_cases hroom : (tokens s).length < maxArg
  swap
  · rcases body_eq hl hlen hs with ⟨hroom', -⟩ | ⟨-, hbody⟩
    · exact absurd hroom' hroom
    · rw [hbody]
      exact iff_of_false (Prog.not_returns_ub x) fun h => hroom h.1
  obtain ⟨word, hword, hb⟩ := ht.external
  rw [redirected_returns hl hlen hs hroom ht, ComesBack, and_iff_right hroom, hword]
  simp only [Option.mem_def, Option.some.injEq, exists_eq_left', hb _ (by simp [builtins] :
    "exit".toList ∈ builtins), hb _ (by simp [builtins] : "listall".toList ∈ builtins),
    hb _ (by simp [builtins] : "compile".toList ∈ builtins), PlainBack, if_pos ht.1,
    Bool.false_eq_true, if_false, true_and, false_or]

theorem FieldsWithin.back {fs : List Str}
    (h : FieldsWithin env (expandedWords env) (fs.map trimmed) x.world) : FieldsBack env fs x := by
  induction fs generalizing x with
  | nil => trivial
  | cons f fs ih =>
      obtain ⟨⟨hlen, hfits⟩, hrest⟩ := h
      exact ⟨hlen, hfits, ih (hrest _ (ran_world x _))⟩

/-- A line that stays within the arrays comes back, unless it is `exit` or a bare
`compile`. -/
theorem Within.comesBack (h : Within env x.world s) (hl : l.Ok) (hlen : chunk.length < maxLine)
    (hs : command chunk = some s) {word : Str} (hword : (tokens s).head? = some word)
    (hexit : isExit s = false) (hbare : ¬ BareCompile s) : ComesBack env l x chunk s := by
  obtain ⟨hroom, hrest⟩ := h
  rw [isExit_eq hword] at hexit
  refine ⟨hroom, word, hword, hexit, ?_⟩
  by_cases hlistall : eqIgnoreCase word "listall".toList = true
  · exact .inl hlistall
  have hneeds := hrest word hword hexit (by simpa using hlistall)
  right
  split
  · rename_i hcompile
    rw [if_pos hcompile] at hneeds
    obtain ⟨name, ts, htokens⟩ := compile_name hbare hword hcompile
    have hname : (tokens s)[1]? = some name := by
      rw [htokens]
      rfl
    exact ⟨name, hname, hneeds name hname⟩
  · rename_i hcompile
    rw [if_neg hcompile, PlainWithin] at hneeds
    rw [PlainBack]
    split
    · rename_i hredir
      rw [if_pos hredir] at hneeds
      obtain ⟨input, output, ws, hsplit, hfits⟩ := hneeds
      exact ⟨input, output, ws, scanFinds_of_split hl hlen hs hroom hsplit, hfits⟩
    · rename_i hredir
      rw [if_neg hredir] at hneeds
      split
      · rename_i hseq
        rw [if_pos hseq] at hneeds
        exact hneeds.back
      · rename_i hseq
        rw [if_neg hseq] at hneeds
        split
        · rename_i hpipe
          rw [if_pos hpipe] at hneeds
          exact hneeds.1
        · rename_i hpipe
          rwa [if_neg hpipe] at hneeds

end

/-! ## The strings that the loop parses -/

/-- The strings that the rounds pass to `parse`; `none` when one of them writes outside
`line`. -/
def parsedBy (rs : List (LoopRound W)) : Option (List Str) :=
  rs.mapM fun r => (readCommand r.locals.mem r.chunk).map Prod.snd

def LoopRound.ComesBack (env : Env W) (r : LoopRound W) : Prop :=
  ∃ s, command r.chunk = some s ∧ Shell.ComesBack env r.locals r.ctx r.chunk s

theorem parsedBy_cons (r : LoopRound W) (rs : List (LoopRound W)) : parsedBy (r :: rs) =
    ((readCommand r.locals.mem r.chunk).map Prod.snd).bind fun t =>
      (parsedBy rs).bind fun ts => some (t :: ts) := by
  rw [parsedBy, List.mapM_cons]
  rfl

/-- What a round parses does not depend on what the memory holds. -/
theorem readCommand_command {l : Locals} (hl : l.Ok) {chunk : Str} (hlen : chunk.length < maxLine) :
    (readCommand l.mem chunk).map Prod.snd = command chunk := by
  obtain ⟨line, backup, heap, hmem, hline, -⟩ := hl.mem
  rw [hmem]
  cases hs : command chunk with
  | none => rw [readCommand_none hs]; rfl
  | some s => rw [readCommand_eq hline hlen hs]; rfl

/-- No round writes outside `line` when none reads a NUL byte first. -/
theorem parsedBy_ne_none_iff {rs : List (LoopRound W)}
    (hrs : ∀ r ∈ rs, r.locals.Ok ∧ r.chunk.length < maxLine ∧ r.chunk ≠ []) :
    parsedBy rs ≠ none ↔ ∀ r ∈ rs, r.chunk.head? ≠ some NUL := by
  induction rs with
  | nil => exact iff_of_true (Option.some_ne_none _) fun r hr => by cases hr
  | cons r rs ih =>
      obtain ⟨⟨hok, hlen, hne⟩, hrest⟩ := List.forall_mem_cons.mp hrs
      have hhead : r.chunk.head? ≠ some NUL ↔ command r.chunk ≠ none :=
        not_congr (command_eq_none_iff hne).symm
      rw [List.forall_mem_cons, ← ih hrest, parsedBy_cons, readCommand_command hok hlen, hhead]
      cases command r.chunk with
      | none => exact iff_of_false (fun h => h rfl) fun h => h.1 rfl
      | some t =>
          cases parsedBy rs with
          | none => exact iff_of_false (fun h => h rfl) fun h => h.2 rfl
          | some ts => simp

/-- A first line without its newline, or too long for the buffer, is not parsed as it is. -/
theorem parsedBy_ne {s t : Str} {ended : Bool} {rest : List (Str × Bool)} (hs : NUL ∉ s)
    (hne : s ≠ []) (hlines : lines s = (t, ended) :: rest)
    (hbad : ¬ (ended = true ∧ t.length + 1 < maxLine)) {l : Locals} (hl : l.Ok) (x : Ctx W)
    (ts : List Str) : parsedBy (rounds env (chunks s) l x) ≠ some (t :: ts) := by
  rw [chunks_cons hne, rounds, parsedBy_cons, readCommand_command hl (length_fgets_lt s)]
  intro h
  obtain ⟨t', ht', h⟩ := Option.bind_eq_some_iff.mp h
  obtain ⟨ts, -, h⟩ := Option.bind_eq_some_iff.mp h
  rw [Option.some.injEq, List.cons.injEq] at h
  exact command_ne_line hs hlines hbad (ht'.trans (congrArg some h.1))

section
variable {chunk t : Str} {l : Locals} (hl : l.Ok) (hlen : chunk.length < maxLine)
  (ht : command chunk = some t) (cs : List Str)
include hl hlen ht

theorem parsedBy_stopped (hstop : ¬ ((body l chunk).run env x).Returns) :
    parsedBy (rounds env (chunk :: cs) l x) = some [t] := by
  rw [rounds_stopped hstop, parsedBy_cons, readCommand_command hl hlen, ht]
  rfl

theorem parsedBy_returned {l' : Locals} (hout : ((body l chunk).run env x).outcome = .ret l') :
    parsedBy (rounds env (chunk :: cs) l x) =
      (parsedBy (rounds env cs l' ((body l chunk).run env x).ctx)).map (t :: ·) := by
  rw [rounds_returned hout, parsedBy_cons, readCommand_command hl hlen, ht]
  cases parsedBy (rounds env cs l' ((body l chunk).run env x).ctx) with
  | none => rfl
  | some ts => rfl

end

/-- Without NUL bytes the loop parses the lines, as long as a newline ends them, they
fit the buffer, and every round with more to read comes back. -/
theorem parsedBy_eq_lines_iff {s : Str} (hs : NUL ∉ s) {l : Locals} (hl : l.Ok) (x : Ctx W) :
    parsedBy (rounds env (chunks s) l x) = some (upTo isExit ((lines s).map Prod.fst)) ↔
      (∀ line ∈ upTo (fun line => isExit line.1) (lines s),
        line.2 = true ∧ line.1.length + 1 < maxLine) ∧
      ∀ r ∈ rounds env (chunks s) l x, r.rest ≠ [] → exits r.chunk = false → r.ComesBack env := by
  induction hn : s.length using Nat.strong_induction_on generalizing s l x with
  | _ n ih =>
  by_cases hne : s = []
  · subst hne
    refine iff_of_true rfl ⟨fun line hline => ?_, fun r hr => ?_⟩
    · cases hline
    · cases hr
  obtain ⟨⟨t, ended⟩, rest, hlines⟩ := List.exists_cons_of_ne_nil (lines_ne_nil hne)
  rw [hlines, List.map_cons, upTo, upTo]
  by_cases hgood : ended = true ∧ t.length + 1 < maxLine
  swap
  · exact iff_of_false (parsedBy_ne hs hne hlines hgood hl x _)
      fun h => hgood (h.1 _ List.mem_cons_self)
  obtain ⟨rfl, hlen⟩ := hgood
  rcases first_line s with ⟨u, q, hu, rfl, -⟩ | ⟨hu, -⟩
  swap
  · rw [lines_unended hu hne] at hlines
    cases hlines
  rw [lines_ended hu] at hlines
  cases hlines
  simp only [List.mem_append, List.mem_cons, not_or] at hs
  have hcommand : command (t ++ ['\n']) = some t := command_append hs.1 (by decide)
  have hshort : (t ++ ['\n']).length < maxLine := by simpa using hlen
  have hexits : exits (t ++ ['\n']) = isExit t := by rw [exits, hcommand, Option.any_some]
  have hcomes : ((body l (t ++ ['\n'])).run env x).Returns ↔ ComesBack env l x (t ++ ['\n']) t :=
    body_returns_iff hl hshort hcommand
  rw [chunks_ended hu hlen]
  by_cases hexit : isExit t = true
  · -- `exit` is the last line that counts, and its round the last that begins
    have hstop : ¬ ((body l (t ++ ['\n'])).run env x).Returns := by
      rintro ⟨l', hout⟩
      exact (body_exits hl hshort (hexits.trans hexit)).of_ret hout
    rw [parsedBy_stopped hl hshort hcommand _ hstop, rounds_stopped hstop, if_pos hexit,
      if_pos hexit]
    refine iff_of_true rfl ⟨?_, ?_⟩
    · rw [List.forall_mem_singleton]
      exact ⟨rfl, hlen⟩
    · rw [List.forall_mem_singleton, hexits, hexit]
      exact fun _ h => by cases h
  rw [if_neg hexit, if_neg hexit, List.forall_mem_cons,
    and_iff_right (⟨rfl, hlen⟩ : true = true ∧ t.length + 1 < maxLine)]
  by_cases hret : ((body l (t ++ ['\n'])).run env x).Returns
  · have hback : (⟨t ++ ['\n'], chunks q, l, x⟩ : LoopRound W).ComesBack env :=
      ⟨t, hcommand, hcomes.mp hret⟩
    obtain ⟨l', hout⟩ := hret
    have hok := (body_ok hl hshort).of_ret hout
    have htail := ih q.length (by simp [← hn]; omega) hs.2.2 hok
      ((body l (t ++ ['\n'])).run env x).ctx rfl
    rw [parsedBy_returned hl hshort hcommand _ hout, rounds_returned hout, List.forall_mem_cons,
      and_iff_right fun _ _ => hback, ← htail, Option.map_eq_some_iff]
    simp
  · -- no line behind this one is parsed
    rw [parsedBy_stopped hl hshort hcommand _ hret, rounds_stopped hret,
      List.forall_mem_singleton, hexits]
    by_cases hq : q = []
    · subst hq
      refine iff_of_true rfl ⟨fun line hline => ?_, fun h => absurd rfl h⟩
      cases hline
    · refine iff_of_false ?_ ?_
      · obtain ⟨line, rest', hrest⟩ := List.exists_cons_of_ne_nil (lines_ne_nil hq)
        rw [hrest, List.map_cons, upTo]
        intro h
        cases h
      · rintro ⟨-, h⟩
        have hmore : chunks q ≠ [] := by
          rw [chunks_cons hq]
          exact List.cons_ne_nil _ _
        obtain ⟨s', hs', hback⟩ := h hmore (by simpa using hexit)
        obtain rfl := Option.some.inj (hcommand.symm.trans hs')
        exact hret (hcomes.mpr hback)

/-- The rounds write inside `line`, and on a stream without NUL bytes they parse the
lines up to `exit`, exactly when none of them reads a NUL byte first and, on such a
stream, each of these lines has a newline and at most 4094 other bytes and every
round with more to read comes back. -/
theorem reads_lines_iff {l : Locals} (hl : l.Ok) (env : Env W) (x : Ctx W) (stream : Str) :
    (∃ ts, parsedBy (rounds env (chunks stream) l x) = some ts ∧
      (NUL ∉ stream → ts = upTo isExit ((lines stream).map Prod.fst))) ↔
    (∀ r ∈ rounds env (chunks stream) l x, r.chunk.head? ≠ some NUL) ∧
      (NUL ∉ stream →
        (∀ line ∈ upTo (fun line => isExit line.1) (lines stream),
          line.2 = true ∧ line.1.length + 1 < maxLine) ∧
        ∀ r ∈ rounds env (chunks stream) l x, r.rest ≠ [] → exits r.chunk = false →
          r.ComesBack env) := by
  have hrounds : ∀ r ∈ rounds env (chunks stream) l x,
      r.locals.Ok ∧ r.chunk.length < maxLine ∧ r.chunk ≠ [] := by
    intro r hr
    obtain ⟨hok, hmem⟩ := (begins_of_mem_rounds hr).ok hl fun c hc => length_of_mem_chunks hc
    have hchunk := mem_of_mem_upTo hmem
    exact ⟨hok, length_of_mem_chunks hchunk, ne_nil_of_mem_chunks hchunk⟩
  rw [← parsedBy_ne_none_iff hrounds]
  constructor
  · rintro ⟨ts, hts, heq⟩
    refine ⟨by simp [hts], fun hnul => ?_⟩
    exact (parsedBy_eq_lines_iff hnul hl x).mp (heq hnul ▸ hts)
  · rintro ⟨hinside, hlines⟩
    obtain ⟨ts, hts⟩ := Option.ne_none_iff_exists'.mp hinside
    refine ⟨ts, hts, fun hnul => ?_⟩
    have hparsed := (parsedBy_eq_lines_iff hnul hl x).mpr (hlines hnul)
    exact Option.some.inj (hts.symm.trans hparsed)

/-- The line `ls -l;;wc` in a directory where no pattern matches. -/
theorem fields_within : Within (.ofExec fun _ => none) () "ls -l;;wc".toList := by
  refine ⟨by decide, fun word hword _ _ => ?_⟩
  obtain rfl : "ls".toList = word := Option.some.inj hword
  rw [if_neg (by decide), PlainWithin, if_neg (by decide), if_pos (by decide),
    show (fields ';' "ls -l;;wc".toList).map trimmed = ["ls -l".toList, "wc".toList] by decide]
  exact ⟨⟨by decide, by decide⟩, fun _ _ =>
    ⟨⟨by decide, (by decide : ["wc".toList].length < maxArg)⟩, fun _ _ => trivial⟩⟩

/-- The line `cat < f` there. -/
theorem catF_within : Within (.ofExec fun _ => none) () "cat < f".toList := by
  refine ⟨by decide, fun word hword _ _ => ?_⟩
  obtain rfl : "cat".toList = word := Option.some.inj hword
  rw [if_neg (by decide), PlainWithin, if_pos (by decide)]
  exact ⟨_, _, _, (by decide : splitRedir (tokens "cat < f".toList) none none [] =
    some (some "f".toList, none, ["cat".toList])), by decide⟩

/-- Four lines; the last is behind the `exit`. -/
theorem lines_read : ∃ ts, parsedBy (rounds (.ofExec fun _ => none)
      (chunks "ls -l;;wc\ncat < f\nexit\n\n".toList) .zero .terminal) = some ts ∧
    (NUL ∉ "ls -l;;wc\ncat < f\nexit\n\n".toList → ts =
      upTo isExit ((lines "ls -l;;wc\ncat < f\nexit\n\n".toList).map Prod.fst)) := by
  have hchunks : upTo exits (chunks "ls -l;;wc\ncat < f\nexit\n\n".toList) =
      ["ls -l;;wc\n".toList, "cat < f\n".toList, "exit\n".toList] := by decide
  have hreached : ∀ r ∈ rounds (.ofExec fun _ => none)
      (chunks "ls -l;;wc\ncat < f\nexit\n\n".toList) .zero .terminal,
      r.locals.Ok ∧ r.chunk ∈ ["ls -l;;wc\n".toList, "cat < f\n".toList, "exit\n".toList] := by
    intro r hr
    rw [← hchunks]
    exact (begins_of_mem_rounds hr).ok Locals.zero_ok fun c hc => length_of_mem_chunks hc
  refine (reads_lines_iff Locals.zero_ok _ _ _).mpr ⟨fun r hr => ?_, fun _ => ⟨?_, ?_⟩⟩
  · have hchunk := (hreached r hr).2
    revert hchunk
    generalize r.chunk = chunk
    revert chunk
    decide
  · decide
  · intro r hr _ hexits
    obtain ⟨hok, hchunk⟩ := hreached r hr
    simp only [List.mem_cons, List.not_mem_nil, or_false] at hchunk
    rcases hchunk with h | h | h
    · have hs : command r.chunk = some "ls -l;;wc".toList := by rw [h]; decide
      exact ⟨_, hs, fields_within.comesBack hok (by rw [h]; decide) hs rfl (by decide)
        (by rintro ⟨_, hone, -⟩; cases hone)⟩
    · have hs : command r.chunk = some "cat < f".toList := by rw [h]; decide
      exact ⟨_, hs, catF_within.comesBack hok (by rw [h]; decide) hs rfl (by decide)
        (by rintro ⟨_, hone, -⟩; cases hone)⟩
    · rw [h] at hexits
      exact absurd hexits (by decide)

/-- On the stream `ls` without a newline the loop parses `l`. -/
theorem ls_unended : ¬ ∃ ts, parsedBy (rounds (.ofExec fun _ => none) (chunks "ls".toList) .zero
      .terminal) = some ts ∧
    (NUL ∉ "ls".toList → ts = upTo isExit ((lines "ls".toList).map Prod.fst)) := by
  rintro ⟨ts, hts, heq⟩
  rw [heq (by decide), parsedBy_eq_lines_iff (by decide) Locals.zero_ok] at hts
  exact absurd (hts.1 ("ls".toList, false) (by decide)).1 (by decide)

end UnixSys.Shell
