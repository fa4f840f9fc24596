import UnixSys.Shell.Effects
import UnixSys.Shell.Refine

/-!
# Compile — the command of the `compile` builtin

`compile` runs `gcc` on the expansion of its first word, and on the expansion of
that word less its last two bytes as the name of the output.
`compile_sound_iff` says when that is a command that compiles.
-/

namespace UnixSys.Shell

open Posix

variable {W : Type} {env : Env W} {x : Ctx W}

theorem expand_append (w : W) (us vs : List Str) :
    expand env w (us ++ vs) = expand env w us ++ expand env w vs :=
  List.flatMap_append

/-- A name without wildcards stands for itself. -/
theorem expand_plain (w : W) {word : Str} (hword : isName word = true) :
    expand env w [word] = [word] := by
  rw [expand_cons, expand, List.flatMap_nil, List.append_nil]
  cases hglob : env.glob w word with
  | none => rfl
  | some ms => exact env.glob_plain w word ms hglob hword

/-- An expansion to one path that is empty is the expansion of the empty word. -/
theorem expand_ne_nil {w : W} {word path : Str} (hword : word ≠ [])
    (h : expand env w [word] = [path]) : path ≠ [] := by
  rw [expand_cons, expand, List.flatMap_nil, List.append_nil] at h
  cases hglob : env.glob w word with
  | none =>
      rw [hglob] at h
      cases h
      exact hword
  | some ms =>
      rw [hglob] at h
      have hms : ms = [path] := h
      exact (env.glob_path w word ms hglob path (hms ▸ List.mem_singleton_self path)).1

/-- The list that `compile` executes. -/
theorem expand_gcc (w : W) (name output : Str) :
    expand env w ["gcc".toList, name, "-o".toList, output] =
      "gcc".toList :: (expand env w [name] ++ "-o".toList :: expand env w [output]) := by
  have hcut : ["gcc".toList, name, "-o".toList, output] =
      ["gcc".toList] ++ ([name] ++ (["-o".toList] ++ [output])) := rfl
  have hgcc : expand env w ["gcc".toList] = ["gcc".toList] := expand_plain w (by decide)
  have ho : expand env w ["-o".toList] = ["-o".toList] := expand_plain w (by decide)
  rw [hcut, expand_append, expand_append, expand_append, hgcc, ho]
  rfl

theorem nameLength_of_le {s : Str} (h : 2 ≤ s.length) (hlt : s.length < 2 ^ 64) :
    nameLength s = s.length - 2 := by
  rw [nameLength]
  omega

/-- From fewer than two bytes the length wraps around, and nothing is cut off. -/
theorem nameLength_of_lt {s : Str} (h : s.length < 2) : s.length ≤ nameLength s := by
  rw [nameLength]
  omega

section
variable {s : Str} (hlen : (tokens s).length < maxArg)
include hlen

/-- A line whose first word is `compile`. -/
theorem compile_observed (env : Env W) {word : Str} (hword : (tokens s).head? = some word)
    (hcompile : eqIgnoreCase word "compile".toList = true) (x : Ctx W) :
    ((runLine s).run env x).observed = ((runCompile (tokens s)).run env x).observed := by
  obtain ⟨hcmp₁, hcmp₂, hcmp₃⟩ := compile_cascade hcompile env x
  rw [runLine, if_pos hlen, hword, hcmp₁.observed_bind]
  rw [if_neg Bool.false_ne_true, hcmp₂.observed_bind]
  rw [if_neg Bool.false_ne_true, hcmp₃.observed_bind]
  rfl

end

theorem runCompile_launches (word name : Str) (rest : List Str) :
    ((runCompile (word :: name :: rest)).run env x).launches =
      if (expand env x.world [name]).length +
          (expand env x.world [name.take (nameLength name)]).length + 2 < maxArg then
        [x.fds.launch ("gcc".toList :: (expand env x.world [name] ++
          "-o".toList :: expand env x.world [name.take (nameLength name)]))]
      else [] := by
  have hargs : expand env x.world ["gcc".toList, name, "-o".toList,
      name.take (nameLength name)] = _ := expand_gcc x.world name (name.take (nameLength name))
  have hcount := congrArg List.length hargs
  simp only [List.length_cons, List.length_append] at hcount
  rw [runCompile]
  split
  · rename_i hlt
    rw [← hargs]
    exact ((runWords_passes (by omega)).bind (printf_passes prompt _)).launches
  · rename_i hge
    exact ((runWords_crashes (by omega)).bind _).launches

/-- What a round launches on a `compile` line with a word after it. -/
theorem body_compile_launches {l : Locals} (hl : l.Ok) {chunk s word name : Str}
    {rest : List Str} (hlen : chunk.length < maxLine) (hs : command chunk = some s)
    (hroom : (tokens s).length < maxArg) (htokens : tokens s = word :: name :: rest)
    (hcompile : eqIgnoreCase word "compile".toList = true) :
    ((body l chunk).run env x).launches =
      ((runCompile (word :: name :: rest)).run env x).launches := by
  have hword : (tokens s).head? = some word := by rw [htokens]; rfl
  have hnot : ¬ TakesRedir s := fun ht =>
    absurd hcompile (by rw [ht.2 word hword _ (by simp [builtins])]; exact Bool.false_ne_true)
  rw [(body_rel hl hlen hs fun ht => absurd ht hnot).launches_eq env x, ← htokens]
  exact congrArg Prod.fst (compile_observed hroom env hword hcompile x)

/-- The words of a line, by its first and its second. -/
theorem eq_cons_cons {ts : List Str} {word name : Str} (hword : ts.head? = some word)
    (hname : ts[1]? = some name) : ∃ rest, ts = word :: name :: rest := by
  obtain ⟨rest, rfl⟩ := List.head?_eq_some_iff.mp hword
  rw [List.getElem?_cons_succ, ← List.head?_eq_getElem?] at hname
  obtain ⟨rest', rfl⟩ := List.head?_eq_some_iff.mp hname
  exact ⟨rest', rfl⟩

/-- A name for the output that is neither empty nor one of the paths comes from a word of
at least three bytes. -/
theorem three_le_of_output {w : W} {name output : Str} (hbytes : name.length < 2 ^ 64)
    (houtput : expand env w [name.take (nameLength name)] = [output])
    (hne : output ≠ []) (hfresh : output ∉ expand env w [name]) : 3 ≤ name.length := by
  by_contra hlt
  by_cases htwo : name.length < 2
  · -- the whole word is the name
    rw [List.take_of_length_le (nameLength_of_lt htwo)] at houtput
    rw [houtput] at hfresh
    exact hfresh (List.mem_singleton_self output)
  · -- the name is empty
    have hnone : nameLength name = 0 := by
      rw [nameLength_of_le (by omega) hbytes]
      omega
    rw [hnone, List.take_zero, expand_plain w rfl] at houtput
    exact hne (List.head_eq_of_cons_eq houtput).symm

/-- A `compile` line runs one command: `gcc`, the paths of the word after `compile`,
`-o` and one name that is not empty and none of these paths. -/
def CompilesSoundly (env : Env W) (x : Ctx W) (l : Locals) (chunk s : Str) : Prop :=
  ∃ name output, (tokens s)[1]? = some name ∧
    ((body l chunk).run env x).launches = [x.fds.launch
      ("gcc".toList :: (expand env x.world [name] ++ ["-o".toList, output]))] ∧
    output ≠ [] ∧ output ∉ expand env x.world [name]

/-- It does, exactly when there is a word of at least three bytes after `compile`,
and its name less two bytes stands for one path, which is none of its own; and
the words and the paths fit their arrays. -/
theorem compile_sound_iff {l : Locals} (hl : l.Ok) {chunk s word : Str}
    (hlen : chunk.length < maxLine) (hs : command chunk = some s)
    (hword : (tokens s).head? = some word)
    (hcompile : eqIgnoreCase word "compile".toList = true) :
    CompilesSoundly env x l chunk s ↔
      (tokens s).length < maxArg ∧ ∃ name output, (tokens s)[1]? = some name ∧
        3 ≤ name.length ∧ (expand env x.world [name]).length + 3 < maxArg ∧
        expand env x.world [name.take (name.length - 2)] = [output] ∧
        output ∉ expand env x.world [name] := by
  obtain ⟨-, -, -, -, -, hshort⟩ := command_eq_some hs []
  have hbytes : ∀ name, (tokens s)[1]? = some name → name.length < 2 ^ 64 := by
    intro name hname
    have := length_le_of_mem_tokens (List.mem_of_getElem? hname)
    have hmax : maxLine < 2 ^ 64 := by decide
    omega
  by_cases hroom : (tokens s).length < maxArg
  swap
  · -- the tokens overflow `argv`, and nothing is launched
    refine iff_of_false ?_ fun h => hroom h.1
    rintro ⟨name, output, -, hlaunch, -⟩
    rcases body_eq hl hlen hs with ⟨hlt, -⟩ | ⟨-, hbody⟩
    · exact hroom hlt
    · rw [hbody] at hlaunch
      cases hlaunch
  rw [CompilesSoundly, and_iff_right hroom]
  refine exists_congr fun name => exists_congr fun output => and_congr_right fun hname => ?_
  obtain ⟨rest, htokens⟩ := eq_cons_cons hword hname
  rw [body_compile_launches hl hlen hs hroom htokens hcompile, runCompile_launches]
  constructor
  · rintro ⟨hlaunch, hne, hfresh⟩
    split at hlaunch
    swap
    · cases hlaunch
    rename_i hfits
    -- `gcc`, the paths of the name, `-o`, and the paths of the output name
    have hargs := congrArg Launch.argv (List.head_eq_of_cons_eq hlaunch)
    have houtput : expand env x.world [name.take (nameLength name)] = [output] :=
      List.tail_eq_of_cons_eq (List.append_cancel_left (List.tail_eq_of_cons_eq hargs))
    have hthree := three_le_of_output (hbytes name hname) houtput hne hfresh
    rw [houtput, List.length_singleton] at hfits
    rw [nameLength_of_le (by omega) (hbytes name hname)] at houtput
    exact ⟨hthree, hfits, houtput, hfresh⟩
  · rintro ⟨hthree, hfits, houtput, hfresh⟩
    rw [nameLength_of_le (by omega) (hbytes name hname), houtput, List.length_singleton,
      if_pos hfits]
    refine ⟨rfl, expand_ne_nil ?_ houtput, hfresh⟩
    intro hnil
    have := congrArg List.length hnil
    rw [List.length_take, List.length_nil] at this
    omega

/-- `compile a.c` runs `gcc a.c -o a`. -/
theorem a_c_compiles : CompilesSoundly (.ofExec fun _ => none) .terminal .zero
    "compile a.c\n".toList "compile a.c".toList := by
  have hword : (tokens "compile a.c".toList).head? = some "compile".toList := by decide
  refine (compile_sound_iff Locals.zero_ok (by decide) (by decide) hword (by decide)).mpr ?_
  exact ⟨by decide, "a.c".toList, "a".toList, by decide, by decide, by decide, by decide,
    by decide⟩

/-- `compile a` runs `gcc a -o a`. -/
theorem a_names_itself : ¬ CompilesSoundly (.ofExec fun _ => none) .terminal .zero
    "compile a\n".toList "compile a".toList := by
  rintro ⟨name, output, hname, hlaunch, -, hfresh⟩
  have htokens : tokens "compile a".toList = ["compile".toList, "a".toList] := by decide
  rw [body_compile_launches Locals.zero_ok (by decide)
    (show command "compile a\n".toList = some "compile a".toList by decide) (by decide) htokens
    (by decide), runCompile_launches] at hlaunch
  obtain rfl : "a".toList = name := by
    rw [htokens] at hname
    exact Option.some.inj hname
  have hargs := congrArg Launch.argv (List.head_eq_of_cons_eq hlaunch)
  obtain rfl : "a".toList = output := by
    injection hargs with _ hargs
    injection hargs with _ hargs
    injection hargs with _ hargs
    injection hargs with hargs
  exact hfresh (by decide)

end UnixSys.Shell
