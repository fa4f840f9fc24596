import UnixSys.Shell.Contexts

/-!
# Redirections — a line with `<` and `>`, and the line without them

The redirection branch runs what is left of the whole line as one command. For a
plain command that is the command with its descriptors replaced; `listall` never
gets there, and the `|` of a pipeline is passed on as an argument.
-/

namespace UnixSys.Shell

open Posix

variable {W : Type} {env : Env W}

/-! ## The tokens that are left -/

section
variable {ts ws ws' : List Str} {input output input' output' : Option Str}

/-- A redirection that was found stands on the line as a token of its own. -/
theorem splitRedir_operator
    (h : splitRedir ts input output ws = some (input', output', ws')) :
    (input' = input ∧ output' = output) ∨ ∃ word ∈ ts, isOperator word = true := by
  induction ts, input, output, ws using splitRedir.induct with
  | case1 input output ws =>
      cases h
      exact .inl ⟨rfl, rfl⟩
  | case2 w input output ws hop => exact .inr ⟨w, List.mem_singleton_self w, hop⟩
  | case3 w input output ws hop =>
      rw [splitRedir, if_neg hop] at h
      cases h
      exact .inl ⟨rfl, rfl⟩
  | case4 next rest input output ws ih => exact .inr ⟨_, List.mem_cons_self, rfl⟩
  | case5 next rest input output ws hne ih => exact .inr ⟨_, List.mem_cons_self, rfl⟩
  | case6 w next rest input output ws hlt hgt ih =>
      rw [splitRedir, if_neg hlt, if_neg hgt] at h
      rcases ih h with hnone | ⟨word, hword, hop⟩
      · exact .inl hnone
      · exact .inr ⟨word, List.mem_cons_of_mem w hword, hop⟩

/-- The first word is an operator, or the first of the words that are left. -/
theorem splitRedir_head {word : Str} (hword : ts.head? = some word)
    (h : splitRedir ts input output [] = some (input', output', ws')) :
    isOperator word = true ∨ ws'.head? = some word := by
  rw [splitRedir_words h, List.nil_append, or_iff_not_imp_left]
  intro hop
  match ts, hword with
  | [_], rfl => rw [commandWords, if_neg hop]; rfl
  | _ :: next :: rest, rfl => rw [commandWords, if_neg hop]; rfl

end

/-! ## The descriptors of the command -/

def redirectFd (T : FdTable) (fd : Int) (how : OpenHow) : Option Str → FdTable
  | none => T
  | some file => T.put fd (.file file how)

/-- The same launch, with the redirected descriptors. -/
def redirected (input output : Option Str) (l : Launch) : Launch :=
  { l with
    stdin := input.elim l.stdin fun file => some (.file file inputHow)
    stdout := output.elim l.stdout fun file => some (.file file outputHow) }

theorem get_redirectFd (T : FdTable) {fd : Int} (hfd : 0 ≤ fd) (how : OpenHow)
    (file : Option Str) (x : Int) : (redirectFd T fd how file).get x =
      if x = fd then file.elim (T.get fd) fun file => some (.file file how) else T.get x := by
  cases file with
  | none =>
      split_ifs with h
      · rw [h]; rfl
      · rfl
  | some file => simp [redirectFd, hfd]

section
variable {x : Ctx W} {w : W}

theorem fileRedir_passes (h0 : x.fds.get 0 ≠ none) (h1 : x.fds.get 1 ≠ none) {fd : Int}
    (hfd : fd = 0 ∨ fd = 1) {how : OpenHow} {file : Str}
    (hopen : env.openFile x.world file how = some w) :
    (do let new ← openFile file how
        if new < 0 then perror file
        else do dup2 new fd; close new : Prog Unit).Passes env x [] ()
      { x with fds := x.fds.put fd (.file file how), world := w } := by
  have happ : (openFile file how).Passes env x [] x.fds.lowest
      { x with fds := x.fds.put x.fds.lowest (.file file how), world := w } :=
    .call (by simp only [Call.apply, hopen])
  refine happ.bind ?_
  rw [if_neg (Int.not_lt.mpr x.fds.lowest_nonneg), ← (redirect_eq h0 h1 hfd _).1]
  exact (Prog.Passes.call (c := .dup2 _ _) rfl).bind (.call rfl)

theorem redirectTo_stdin (h0 : x.fds.get 0 ≠ none) (h1 : x.fds.get 1 ≠ none)
    {input : Option Str} (hopen : openIf env inputHow input x.world = some w) :
    (redirectTo "<".toList input).Passes env x [] ()
      { x with fds := redirectFd x.fds 0 inputHow input, world := w } := by
  cases input with
  | none =>
      cases hopen
      exact .ret () x
  | some file => exact fileRedir_passes h0 h1 (.inl rfl) hopen

theorem redirectTo_stdout (h0 : x.fds.get 0 ≠ none) (h1 : x.fds.get 1 ≠ none)
    {output : Option Str} (hopen : openIf env outputHow output x.world = some w) :
    (redirectTo ">".toList output).Passes env x [] ()
      { x with fds := redirectFd x.fds 1 outputHow output, world := w } := by
  cases output with
  | none =>
      cases hopen
      exact .ret () x
  | some file => exact fileRedir_passes h0 h1 (.inr rfl) hopen

end

/-! ## The branch -/

section
variable {x : Ctx W} {w₁ w : W} (h0 : x.fds.get 0 ≠ none) (h1 : x.fds.get 1 ≠ none)
  {input output : Option Str} (hin : openIf env inputHow input x.world = some w₁)
  (hout : openIf env outputHow output w₁ = some w)
include h0 h1 hin hout

/-- What the branch does before it expands the words of the command. -/
theorem redirect_passes : ∃ (i j : Int) (x₁ x₂ x₃ x₄ : Ctx W),
    (dup 0).Passes env x [] i x₁ ∧ (dup 1).Passes env x₁ [] j x₂ ∧
    (redirectTo "<".toList input).Passes env x₂ [] () x₃ ∧
    (redirectTo ">".toList output).Passes env x₃ [] () x₄ ∧ x₄.world = w ∧
    ∀ args, x₄.fds.launch args = redirected input output (x.fds.launch args) := by
  obtain ⟨a, ha⟩ := Option.ne_none_iff_exists'.mp h0
  obtain ⟨b, hb⟩ := Option.ne_none_iff_exists'.mp h1
  have hlow0 := x.fds.lowest_pos h0
  have hlow1 : x.fds.lowest ≠ 1 := fun h => h1 (h ▸ x.fds.get_lowest)
  obtain ⟨T, hT⟩ : ∃ T, T = x.fds.put x.fds.lowest a := ⟨_, rfl⟩
  have hT0 : T.get 0 = some a := by rw [hT, FdTable.get_put, if_neg (by omega), ha]
  have hT1 : T.get 1 = some b := by rw [hT, FdTable.get_put, if_neg (by omega), hb]
  have hlowT0 := T.lowest_pos (by simp [hT0])
  have hlowT1 : T.lowest ≠ 1 := by
    intro h
    have := T.get_lowest
    rw [h, hT1] at this
    cases this
  obtain ⟨X, hX⟩ : ∃ X, X = T.put T.lowest b := ⟨_, rfl⟩
  have hX0 : X.get 0 = some a := by rw [hX, FdTable.get_put, if_neg (by omega), hT0]
  have hX1 : X.get 1 = some b := by rw [hX, FdTable.get_put, if_neg (by omega), hT1]
  have hY0 : (redirectFd X 0 inputHow input).get 0 ≠ none := by
    rw [get_redirectFd X (Int.le_refl 0), if_pos rfl]
    cases input <;> simp [hX0]
  have hY1 : (redirectFd X 0 inputHow input).get 1 ≠ none := by
    rw [get_redirectFd X (Int.le_refl 0), if_neg (by decide), hX1]
    exact Option.some_ne_none b
  have hdup0 : (dup 0).Passes env x [] x.fds.lowest { x with fds := T } :=
    .call (by simp only [Call.apply, ha, hT])
  have hdup1 : (dup 1).Passes env { x with fds := T } [] T.lowest { x with fds := X } :=
    .call (by simp only [Call.apply, hT1, hX])
  refine ⟨_, _, _, _, _, _, hdup0, hdup1,
    redirectTo_stdin (by simp [hX0]) (by simp [hX1]) hin, redirectTo_stdout hY0 hY1 hout, rfl,
    fun args => ?_⟩
  simp only [FdTable.launch, redirected, get_redirectFd _ (Int.le_refl 0),
    get_redirectFd _ (by decide : (0 : Int) ≤ 1), ha, hb]
  simp [hX0, hX1]

theorem runRedirected_passes {ws : List Str} (hfits : (expand env w ws).length < maxArg) :
    ∃ y, (runRedirected input output ws).Passes env x
      [redirected input output (x.fds.launch (expand env w ws))] () y := by
  obtain ⟨i, j, x₁, x₂, x₃, x₄, h₁, h₂, h₃, h₄, rfl, hlaunch⟩ := redirect_passes h0 h1 hin hout
  obtain ⟨_, y, hrest⟩ : ∃ a y, (do
      dup2 i 0
      dup2 j 1
      close i
      close j
      printf prompt : Prog Unit).Passes env (x₄.ran env (expand env x₄.world ws)) [] a y :=
    ((dup2_silent _ _).bind fun _ => (dup2_silent _ _).bind fun _ => (close_silent _).bind fun _ =>
      (close_silent _).bind fun _ => printf_silent _).passes _
  refine ⟨y, ?_⟩
  rw [← hlaunch]
  exact h₁.bind (h₂.bind (h₃.bind (h₄.bind ((runWords_passes hfits).bind hrest))))

theorem runRedirected_crashes {ws : List Str} (hfits : maxArg ≤ (expand env w ws).length) :
    (runRedirected input output ws).Crashes env x [] := by
  obtain ⟨i, j, x₁, x₂, x₃, x₄, h₁, h₂, h₃, h₄, rfl, -⟩ := redirect_passes h0 h1 hin hout
  exact h₁.crashes (h₂.crashes (h₃.crashes (h₄.crashes ((runWords_crashes hfits).bind _))))

end

/-! ## The line and the line without redirections -/

/-- `L'` is the line `L` without its redirections, of which there are some. -/
structure Stripped (L L' : Str) (input output : Option Str) : Prop where
  split : splitRedir (tokens L) none none [] = some (input, output, tokens L')
  found : input ≠ none ∨ output ≠ none

section
variable {L L' : Str} {input output : Option Str} (h : Stripped L L' input output)
include h

theorem Stripped.operator : ∃ word ∈ tokens L, isOperator word = true := by
  rcases splitRedir_operator h.split with ⟨hin, hout⟩ | hop
  · rcases h.found with hne | hne
    · exact absurd hin hne
    · exact absurd hout hne
  · exact hop

theorem Stripped.contains : (L.contains '<' || L.contains '>') = true := by
  obtain ⟨word, hword, hop⟩ := h.operator
  rw [isOperator_iff] at hop
  rcases hop with rfl | rfl
  · have hmem : '<' ∈ L := mem_of_mem_tokens hword (by decide)
    simp [hmem]
  · have hmem : '>' ∈ L := mem_of_mem_tokens hword (by decide)
    simp [hmem]

theorem Stripped.length_le : (tokens L').length ≤ (tokens L).length := by
  rw [splitRedir_words h.split]
  exact (commandWords_sublist _).length_le

/-- A first word that is no operator is the first word of both lines. -/
theorem Stripped.head {word : Str} (hword : (tokens L).head? = some word) :
    isOperator word = true ∨ (tokens L').head? = some word :=
  splitRedir_head hword h.split

theorem Stripped.external (hext : External L') : External L := by
  obtain ⟨op, hop, -⟩ := h.operator
  obtain ⟨word, ws, hL⟩ := List.exists_cons_of_ne_nil (List.ne_nil_of_mem hop)
  have hword : (tokens L).head? = some word := by rw [hL]; rfl
  refine ⟨word, hword, ?_⟩
  rcases h.head hword with hop | hword'
  · rw [isOperator_iff] at hop
    rcases hop with rfl | rfl <;> decide
  · obtain ⟨word', hhead, hb⟩ := hext
    obtain rfl : word = word' := Option.some.inj (hword'.symm.trans hhead)
    exact hb

end

/-- For a line `L` with redirections and the line `L'` without them: when `L'` is a
plain command, `L` launches what `L'` launches, redirected. Whatever `L'` is, a
line that does not begin with a builtin launches all the words that are left as
one command. After `listall` the redirections do nothing. -/
theorem redirection_law {L L' chunk chunk' : Str} {input output : Option Str} {l l' : Locals}
    (hl : l.Ok) (hl' : l'.Ok) (hL : command chunk = some L) (hL' : command chunk' = some L')
    (hlen : chunk.length < maxLine) (hlen' : chunk'.length < maxLine)
    (hroom : (tokens L).length < maxArg) (h : Stripped L L' input output) {x : Ctx W}
    (h0 : x.fds.get 0 ≠ none) (h1 : x.fds.get 1 ≠ none) {w₁ w : W}
    (hin : openIf env inputHow input x.world = some w₁)
    (hout : openIf env outputHow output w₁ = some w)
    (hglob : ∀ word ∈ tokens L', env.glob w word = env.glob x.world word) :
    (Plain L' → ((body l chunk).run env x).launches =
      ((body l' chunk').run env x).launches.map (redirected input output)) ∧
    (External L → (expand env x.world (tokens L')).length < maxArg →
      ((body l chunk).run env x).launches =
        [redirected input output (x.fds.launch (expand env x.world (tokens L')))]) ∧
    (∀ word ∈ (tokens L).head?, eqIgnoreCase word "listall".toList = true →
      ((body l chunk).run env x).launches = ((body l' chunk').run env x).launches) := by
  have hnamed : ¬ Dangling (tokens L) := by
    rw [Dangling, h.split]
    exact Option.some_ne_none _
  have hrun := (body_rel hl hlen hL fun _ => hnamed).launches_eq env x
  have hroom' := Nat.lt_of_le_of_lt h.length_le hroom
  have hexpand : expand env w (tokens L') = expand env x.world (tokens L') := by
    simp only [expand]
    exact List.flatMap_congr fun word hword => by rw [hglob word hword]
  have hbranch : runPlain L = runRedirected input output (tokens L') := by
    rw [runPlain, if_pos h.contains, h.split]
  -- a plain command, any line of the branch, and `listall`
  refine ⟨fun hplain => ?_, fun hext hfits => ?_, fun word hword hlistall => ?_⟩
  · have hext := h.external hplain.external
    have hrun' := (body_rel hl' hlen' hL' fun hredir => ?_).launches_eq env x
    swap
    · have hno := hplain.contains_eq
      have := hredir.1
      rw [hno '<' (by simp [operators]), hno '>' (by simp [operators])] at this
      cases this
    rw [hrun, hrun']
    by_cases hfits : (expand env x.world (tokens L')).length < maxArg
    · obtain ⟨y, hpass⟩ := runRedirected_passes h0 h1 hin hout (hexpand ▸ hfits)
      obtain ⟨y', hpass', -⟩ := hplain.passes hroom' hfits
      rw [← hbranch] at hpass
      rw [(runLine_passes hroom hext hpass).launches, hpass'.launches, hexpand]
      rfl
    -- both lines overflow `expanded_argv` before they launch anything
    · have hge := Nat.not_lt.mp hfits
      have hcrash := runRedirected_crashes h0 h1 hin hout (hexpand ▸ hge)
      rw [← hbranch] at hcrash
      rw [(runLine_crashes hroom hext hcrash).launches, (hplain.crashes hroom' hge).launches]
      rfl
  · obtain ⟨y, hpass⟩ := runRedirected_passes h0 h1 hin hout (hexpand ▸ hfits)
    rw [← hbranch] at hpass
    rw [hrun, (runLine_passes hroom hext hpass).launches, hexpand]
  -- the first word is no operator, so it is the first word of `L'` too
  · have hnop : isOperator word ≠ true := by
      rintro hop
      rw [isOperator_iff] at hop
      rcases hop with rfl | rfl <;> revert hlistall <;> decide
    have hword' := (h.head hword).resolve_left hnop
    have hrun' := (body_rel hl' hlen' hL' fun hredir => ?_).launches_eq env x
    swap
    · have := hredir.2 word hword' _ (by simp [builtins] : "listall".toList ∈ builtins)
      rw [hlistall] at this
      cases this
    obtain ⟨y, hpass⟩ := listall_passes hroom hword hlistall env x
    obtain ⟨y', hpass'⟩ := listall_passes hroom' hword' hlistall env x
    rw [hrun, hrun', hpass.launches, hpass'.launches]

/-- `cat < f` is `cat` reading `f`. -/
theorem cat_redirected :
    ((body .zero "cat < f\n".toList).run (.ofExec fun _ => none) .terminal).launches =
      ((body .zero "cat\n".toList).run (.ofExec fun _ => none) .terminal).launches.map
        (redirected (some "f".toList) none) := by
  have hstrip : Stripped "cat < f".toList "cat".toList (some "f".toList) none :=
    ⟨by decide, .inl (by decide)⟩
  have hplain : Plain "cat".toList := ⟨⟨"cat".toList, by decide, by decide⟩, by simp [operators]⟩
  have hopen : openIf (Env.ofExec fun _ => none) outputHow none () = some () := rfl
  exact (redirection_law Locals.zero_ok Locals.zero_ok (by decide) (by decide) (by decide)
    (by decide) (by decide) hstrip (by decide) (by decide) rfl hopen fun _ _ => rfl).1 hplain

/-- `listall > f` does not write to `f`, and in `ls | wc > f` the `|` is an
argument of `ls`. -/
theorem listall_unredirected :
    Stripped "listall > f".toList "listall".toList none (some "f".toList) ∧
    ((body .zero "listall > f\n".toList).run (.ofExec fun _ => none) .terminal).launches ≠
      ((body .zero "listall\n".toList).run (.ofExec fun _ => none) .terminal).launches.map
        (redirected none (some "f".toList)) ∧
    ((body .zero "ls | wc > f\n".toList).run (.ofExec fun _ => none)
        .terminal).launches.map Launch.argv =
      [["ls".toList, "|".toList, "wc".toList]] := by
  have hlistall : ∀ s chunk, command chunk = some s → chunk.length < maxLine →
      (tokens s).length < maxArg → (tokens s).head? = some "listall".toList →
      ((body .zero chunk).run (.ofExec fun _ => none) .terminal).launches =
        [Ctx.terminal.fds.launch ["ls".toList, "-la".toList]] := by
    intro s chunk hs hlen hroom hword
    obtain ⟨y, hpass⟩ := listall_passes hroom hword (by decide) (.ofExec fun _ => none) .terminal
    rw [(body_rel Locals.zero_ok hlen hs fun hredir => ?_).launches_eq, hpass.launches]
    exact absurd (hredir.2 _ hword "listall".toList (by simp [builtins])) (by decide)
  refine ⟨⟨by decide, .inr (by decide)⟩, ?_, ?_⟩
  · rw [hlistall "listall > f".toList _ (by decide) (by decide) (by decide) (by decide),
      hlistall "listall".toList _ (by decide) (by decide) (by decide) (by decide)]
    decide
  · have hext : External "ls | wc > f".toList := ⟨"ls".toList, by decide, by decide⟩
    have hsplit : splitRedir (tokens "ls | wc > f".toList) none none [] =
        some (none, some "f".toList, ["ls".toList, "|".toList, "wc".toList]) := by decide
    have hwithin : Within (.ofExec fun _ => none) () "ls | wc > f".toList := by
      refine ⟨by decide, fun word hword _ _ => ?_⟩
      obtain rfl : "ls".toList = word := Option.some.inj hword
      rw [if_neg (by decide), PlainWithin, if_pos (by decide)]
      exact ⟨_, _, _, hsplit, by decide⟩
    have hs : command "ls | wc > f\n".toList = some "ls | wc > f".toList := by decide
    obtain ⟨l, hrun, hargv⟩ := redirected_executed (x := .terminal) Locals.zero_ok hext hs
      (by decide) hwithin (by decide) hsplit
    rw [Run.launches_eq, hrun]
    simp only [List.map_cons, List.map_nil, hargv]
    rfl

end UnixSys.Shell
