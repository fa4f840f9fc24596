import UnixSys.Shell.Effects
import UnixSys.Shell.Rounds

/-!
# History — what earlier lines have to do with a line

The arrays of `main` keep what earlier lines left in them. A line whose redirection
operators all have their file name does what it does after any other lines. One with
an operator as its last token does not: after a line with one word more it executes
the words that stand on it, and after a line with two words more it executes an
argument that does not stand on it (`history_free_iff`).
-/

namespace UnixSys.Shell

open Posix

/-! ## The statement -/

/-- The lines `hist` can leave the shell in the state `l`, in some file system, with
whatever bytes in the buffers at the start. -/
def After (hist : List Str) (l : Locals) : Prop :=
  (∀ chunk ∈ hist, chunk.length < maxLine) ∧
    ∃ (W : Type) (env : Env W) (x : Ctx W) (line backup : Str),
      line.length = maxLine ∧ backup.length = maxLine ∧
      ((readLoop hist (.start line backup)).run env x).outcome = .ret l

/-- The line launches the same processes after any lines. A walk along `argv` and the
scan for redirections come to their end on the entries that `parse` stored for it. -/
structure HistoryFree (chunk s : Str) : Prop where
  launches : ∀ hist hist' l l', After hist l → After hist' l' →
    ∀ {W : Type} (env : Env W) (x : Ctx W),
      ((body l chunk).run env x).launches = ((body l' chunk).run env x).launches
  walk : ∀ hist l m argv, After hist l → parsed l chunk = some (m, argv) →
    m.args (argv.take ((tokens s).length + 1)) = some (tokens s)
  scan : ∀ hist l m argv, After hist l → parsed l chunk = some (m, argv) → TakesRedir s →
    redirScan m (argv.take ((tokens s).length + 1)) .null .null [] ≠ none

theorem After.ok {hist : List Str} {l : Locals} (h : After hist l) : l.Ok := by
  obtain ⟨hhist, W, env, x, line, backup, hline, hbackup, hrun⟩ := h
  exact (readLoop_ok hhist (Locals.start_ok hline hbackup)).of_ret hrun

/-! ## Lines that do not depend on earlier ones -/

section
variable {l : Locals} {chunk s : Str} {m : Mem} {argv : PtrArr}

theorem args_stored (hp : Parsed chunk s l m argv) :
    m.args (argv.take ((tokens s).length + 1)) = some (tokens s) := by
  have hcount := congrArg List.length (tokensAt_snd 0 s)
  rw [List.length_map] at hcount
  have hstored : argv.take ((tokens s).length + 1) = entries lineBlk (tokensAt 0 s) ++ [.null] := by
    rw [hp.argv, ← List.singleton_append, ← List.append_assoc,
      List.take_left' (by simp [entries, hcount])]
  rw [hstored, ← Mem.args_append_null _ (l.argv.drop ((tokens s).length + 1)), ← hp.argv]
  exact hp.args

theorem scan_stored (hp : Parsed chunk s l m argv) (hroom : (tokens s).length < maxArg)
    (hnamed : ¬ Dangling (tokens s)) :
    redirScan m (argv.take ((tokens s).length + 1)) .null .null [] ≠ none := by
  obtain ⟨⟨input, output, ws⟩, hsplit⟩ := Option.ne_none_iff_exists'.mp hnamed
  obtain ⟨pin, pout, argv2, hscan, -⟩ := redirScan_eq hsplit .null .null [] (args_stored hp)
    rfl rfl (by simp) rfl (by simpa using hroom)
  rw [hscan]
  exact Option.some_ne_none _

end

theorem historyFree {chunk s : Str} (hlen : chunk.length < maxLine) (hs : command chunk = some s)
    (hroom : (tokens s).length < maxArg) (hnamed : ¬ (TakesRedir s ∧ Dangling (tokens s))) :
    HistoryFree chunk s := by
  have hstored : ∀ hist l m argv, After hist l → parsed l chunk = some (m, argv) →
      Parsed chunk s l m argv := by
    intro hist l m argv hl hparsed
    rcases parsed_eq hl.ok hlen hs with ⟨-, m', argv', hparsed', hp⟩ | ⟨-, hnone⟩
    · obtain ⟨rfl, rfl⟩ := Prod.mk.inj (Option.some.inj (hparsed.symm.trans hparsed'))
      exact hp
    · rw [hnone] at hparsed
      cases hparsed
  constructor
  · intro hist hist' l l' hl hl' W env x
    have hrel := body_rel hl.ok hlen hs fun ht hd => hnamed ⟨ht, hd⟩
    have hrel' := body_rel hl'.ok hlen hs fun ht hd => hnamed ⟨ht, hd⟩
    rw [hrel.launches_eq, hrel'.launches_eq]
  · intro hist l m argv hl hparsed
    exact args_stored (hstored hist l m argv hl hparsed)
  · intro hist l m argv hl hparsed ht
    exact scan_stored (hstored hist l m argv hl hparsed) hroom fun hd => hnamed ⟨ht, hd⟩

/-! ## The words that earlier lines leave -/

/-- A line of `j + 1` words `x`, the last of them at offset `2 * j + k`. -/
def wordLine : Nat → Nat → Str
  | 0, k => List.replicate k ' ' ++ ['x']
  | j + 1, k => 'x' :: ' ' :: wordLine j k

theorem wordLine_ne_nil (j k : Nat) : wordLine j k ≠ [] := by
  cases j <;> simp [wordLine]

theorem mem_wordLine {j k : Nat} {c : Byte} (h : c ∈ wordLine j k) : c = 'x' ∨ c = ' ' := by
  induction j with
  | zero =>
      simp only [wordLine, List.mem_append, List.mem_replicate, List.mem_singleton] at h
      exact h.symm.imp_right And.right
  | succ j ih =>
      simp only [wordLine, List.mem_cons] at h
      rcases h with h | h | h
      · exact .inl h
      · exact .inr h
      · exact ih h

/-- The last word of the line, as a block of memory has it after `parse`. -/
theorem zap_wordLine (j k : Nat) : ∃ front : Str,
    zap (wordLine j k) = front ++ ['x'] ∧ front.length = 2 * j + k := by
  induction j with
  | zero =>
      refine ⟨zap (List.replicate k ' '), ?_, ?_⟩
      · rw [wordLine, zap_append]
        rfl
      · rw [zap_length, List.length_replicate]
        omega
  | succ j ih =>
      obtain ⟨front, hzap, hlen⟩ := ih
      refine ⟨'x' :: NUL :: front, ?_, ?_⟩
      · show zap ('x' :: ' ' :: wordLine j k) = _
        rw [List.cons_append, List.cons_append, ← hzap]
        rfl
      · rw [List.length_cons, List.length_cons, hlen]
        omega

theorem tokensAt_blank (o : Nat) {t : Str} (ht : t ≠ []) :
    tokensAt o (' ' :: t) = tokensAt (o + 1) t := by
  have hblank : isBlank ' ' = true := rfl
  rw [tokensAt_of_ne_nil o (List.cons_ne_nil _ _), tokensAt_of_ne_nil (o + 1) ht,
    List.takeWhile_cons_of_pos hblank, List.dropWhile_cons_of_pos hblank, List.length_cons]
  have hsum : o + ((t.takeWhile isBlank).length + 1) = o + 1 + (t.takeWhile isBlank).length := by
    omega
  rw [hsum]

theorem tokensAt_x (o : Nat) (t : Str) :
    tokensAt o ('x' :: ' ' :: t) = (o, ['x']) :: tokensAt (o + 1) (' ' :: t) := by
  have hx : ¬ isBlank 'x' = true := by decide
  have hblank : ¬ (!isBlank ' ') = true := by decide
  rw [tokensAt_of_ne_nil o (List.cons_ne_nil _ _), List.takeWhile_cons_of_neg hx,
    List.dropWhile_cons_of_neg hx, List.takeWhile_cons_of_pos (p := (!isBlank ·)) (by decide),
    List.takeWhile_cons_of_neg (p := (!isBlank ·)) hblank,
    List.dropWhile_cons_of_pos (p := (!isBlank ·)) (by decide),
    List.dropWhile_cons_of_neg (p := (!isBlank ·)) hblank]
  rfl

theorem tokensAt_wordLine (o j k : Nat) : ∃ front : List (Nat × Str),
    tokensAt o (wordLine j k) = front ++ [(o + (2 * j + k), ['x'])] ∧ front.length = j ∧
      ∀ t ∈ front, t.2 = ['x'] := by
  induction j generalizing o with
  | zero =>
      have hlast : tokensAt o (wordLine 0 k) = [(o + (2 * 0 + k), ['x'])] := by
        induction k generalizing o with
        | zero =>
            rw [show wordLine 0 0 = ['x'] from rfl, tokensAt_of_ne_nil o (List.cons_ne_nil _ _)]
            show _ :: tokensAt _ [] = _
            rw [tokensAt]
            rfl
        | succ k ih =>
            rw [show wordLine 0 (k + 1) = ' ' :: wordLine 0 k from rfl,
              tokensAt_blank o (wordLine_ne_nil 0 k), ih]
            congr 2
            omega
      exact ⟨[], hlast, rfl, fun t ht => by cases ht⟩
  | succ j ih =>
      obtain ⟨front, htokens, hlen, hx⟩ := ih (o + 2)
      refine ⟨(o, ['x']) :: front, ?_, ?_, ?_⟩
      · show tokensAt o ('x' :: ' ' :: wordLine j k) = _
        rw [tokensAt_x, tokensAt_blank _ (wordLine_ne_nil j k), htokens, List.cons_append]
        congr 4
        omega
      · rw [List.length_cons, hlen]
      · intro t ht
        rcases List.mem_cons.mp ht with rfl | ht
        · rfl
        · exact hx t ht

theorem tokens_wordLine (j k : Nat) : tokens (wordLine j k) = List.replicate (j + 1) ['x'] := by
  obtain ⟨front, htokens, hlen, hx⟩ := tokensAt_wordLine 0 j k
  rw [← tokensAt_snd 0, htokens, List.eq_replicate_iff]
  constructor
  · rw [List.length_map, List.length_append, hlen]
    rfl
  · intro w hw
    obtain ⟨t, ht, rfl⟩ := List.mem_map.mp hw
    rcases List.mem_append.mp ht with ht | ht
    · exact hx t ht
    · rw [List.mem_singleton.mp ht]

theorem length_wordLine (j k : Nat) : (wordLine j k).length = 2 * j + k + 1 := by
  obtain ⟨front, hzap, hlen⟩ := zap_wordLine j k
  rw [← zap_length, hzap, List.length_append, hlen]
  rfl

theorem wordLine_plain (j k : Nat) : Plain (wordLine j k) := by
  constructor
  · refine ⟨['x'], by rw [tokens_wordLine]; rfl, ?_⟩
    decide
  · intro b hb hmem
    rcases mem_wordLine hmem with rfl | rfl
    · exact absurd hb (by simp [operators])
    · exact absurd hb (by simp [operators])

/-- A round with a plain line. -/
theorem plain_round {l : Locals} (hl : l.Ok) {chunk s : Str} (hlen : chunk.length < maxLine)
    (hs : command chunk = some s) (hplain : Plain s) (hroom : (tokens s).length < maxArg) :
    ∃ m argv, Parsed chunk s l m argv ∧ (body l chunk).Rel (Leaves m argv) (do
      let _ ← strcasecmp (tokens s).head? "exit".toList
      let _ ← strcasecmp (tokens s).head? "listall".toList
      let _ ← strcasecmp (tokens s).head? "compile".toList
      runWords (tokens s)
      printf prompt) := by
  rcases body_eq hl hlen hs with ⟨-, m, argv, hbody, hp⟩ | ⟨hfull, -⟩
  swap
  · omega
  obtain ⟨-, -, -, -, hnul, -⟩ := command_eq_some hs []
  refine ⟨m, argv, hp, ?_⟩
  rw [hbody]
  refine dispatch_external_rel hp hnul ?_ ?_
  · intro word hword
    obtain ⟨word', hword', hb⟩ := hplain.external
    obtain rfl : word = word' := Option.some.inj (hword.symm.trans hword')
    exact hb
  · have hno := hplain.contains_eq
    rw [hno '<' (by simp [operators]), hno '>' (by simp [operators]),
      hno ';' (by simp [operators]), hno '|' (by simp [operators])]
    exact otherCase_rel hl.expandedArgv hp.args

/-- After a line of `j + 1` words entry `j` of `argv` points to the last of them. -/
theorem after_wordLine {j k : Nat} (hj : j + 1 < maxArg) (hk : k ≤ 1) :
    ∃ (l : Locals) (front rest : Str) (heap : Mem) (before unused : PtrArr),
      After [wordLine j k ++ ['\n']] l ∧
      l.mem = (front ++ 'x' :: NUL :: rest) :: heap ∧ front.length = 2 * j + k ∧
      l.argv = before ++ .at lineBlk (2 * j + k) :: .null :: unused ∧ before.length = j := by
  obtain ⟨line, hline⟩ : ∃ line : Str, line.length = maxLine :=
    ⟨List.replicate maxLine NUL, List.length_replicate⟩
  have hmax : maxArg = 64 ∧ maxLine = 4096 := ⟨rfl, rfl⟩
  have hlength := length_wordLine j k
  have hlen : (wordLine j k ++ ['\n']).length < maxLine := by
    rw [List.length_append, hlength, List.length_singleton]
    omega
  have hnul : NUL ∉ wordLine j k := by
    intro h
    rcases mem_wordLine h with h | h <;> cases h
  have hcommand : command (wordLine j k ++ ['\n']) = some (wordLine j k) :=
    command_append hnul (by decide)
  have hroom : (tokens (wordLine j k)).length < maxArg := by
    rw [tokens_wordLine, List.length_replicate]
    exact hj
  obtain ⟨m, argv, hp, hrel⟩ :=
    plain_round (Locals.start_ok hline hline) hlen hcommand (wordLine_plain j k) hroom
  let env : Env Unit := .ofExec fun _ => none
  have hwords : (runWords (tokens (wordLine j k))).Passes env Ctx.terminal _ () _ :=
    runWords_passes (by rw [expand_ofExec]; exact hroom)
  have hpass := (wordLine_plain j k).external.cascade_passes
    (hwords.bind (f := fun _ => printf prompt) (printf_passes prompt _))
  obtain ⟨l, hrun, ⟨x, hmem⟩, hargv, -⟩ := hpass.of_rel hrel
  obtain ⟨line', backup', heap', post, hstart, hm, -⟩ := hp.mem
  -- the history is this one line, in a directory where no program is found
  have hafter : After [wordLine j k ++ ['\n']] l := by
    refine ⟨?_, Unit, env, Ctx.terminal, line, line, hline, hline, ?_⟩
    · intro chunk hchunk
      rw [List.mem_singleton.mp hchunk]
      exact hlen
    · show ((body _ _ >>= pure).run env Ctx.terminal).outcome = _
      rw [bind_pure]
      exact hrun
  obtain ⟨front, hzap, hfront⟩ := zap_wordLine j k
  obtain ⟨before, htokens, hbefore, -⟩ := tokensAt_wordLine 0 j k
  rw [hm, hzap, List.append_assoc, List.singleton_append, List.cons_append] at hmem
  rw [hp.argv, htokens, Nat.zero_add, entries, List.map_append, List.append_assoc] at hargv
  have hlast : (before.map fun t => Ptr.at lineBlk t.1).length = j := by
    rw [List.length_map, hbefore]
  exact ⟨l, front, _, _, _, _, hafter, hmem, hfront, hargv, hlast⟩

/-! ## Lines that depend on earlier ones -/

/-- The bytes of `line` after a round: those that `fgets` stored last lie before its
NUL, and those of earlier lines behind it. -/
theorem line_after (line : Str) {chunk s : Str} (h : s.length < chunk.length) :
    zap s ++ NUL :: lineRest line chunk s =
      (zap s ++ NUL :: chunk.drop (s.length + 1)) ++ NUL :: line.drop (chunk.length + 1) := by
  rw [lineRest, List.drop_append_of_le_length h, List.append_assoc, List.cons_append]

/-- A word that starts at `o` or at `o + 1` of earlier lines is no operator, when a
later one has stored the bytes `p` and a NUL. -/
theorem stale_word (p : Str) (o : Nat) : ∃ k w, k ≤ 1 ∧ ¬ isOperator w = true ∧
    ∀ front rest : Str, front.length = o + k →
      cstrOf ((p ++ NUL :: (front ++ 'x' :: NUL :: rest).drop (p.length + 1)).drop (o + k)) =
        some w := by
  -- behind the later line the word is still there
  have hbehind : ∀ k (front rest : Str), front.length = o + k → p.length < o + k →
      cstrOf ((p ++ NUL :: (front ++ 'x' :: NUL :: rest).drop (p.length + 1)).drop (o + k)) =
        some ['x'] := by
    intro k front rest hfront hk
    have hdrop : (p ++ NUL :: (front ++ 'x' :: NUL :: rest).drop (p.length + 1)).drop (o + k) =
        ['x'] ++ NUL :: rest := by
      obtain ⟨d, hd⟩ : ∃ d, o + k = p.length + (d + 1) := ⟨o + k - p.length - 1, by omega⟩
      have hlength : p.length + 1 + d = front.length := by omega
      rw [hd, List.drop_length_add_append, List.drop_succ_cons, List.drop_drop, hlength,
        List.drop_left]
      rfl
    rw [hdrop]
    exact cstrOf_append (by decide) rest
  -- below it there is what the later line has stored
  have hbelow : ∀ k (r : Str), o + k ≤ p.length →
      cstrOf ((p ++ NUL :: r).drop (o + k)) = some ((p.drop (o + k)).takeWhile (· ≠ NUL)) := by
    intro k r hk
    rw [List.drop_append_of_le_length hk, cstrOf, if_pos (by simp)]
    rw [List.takeWhile_append]
    split
    · rename_i hall
      rw [List.takeWhile_cons_of_neg (by simp), List.append_nil,
        (List.takeWhile_prefix _).eq_of_length hall]
    · rfl
  by_cases ho : p.length < o
  · exact ⟨0, ['x'], Nat.zero_le 1, by decide, fun front rest h => hbehind 0 front rest h ho⟩
  by_cases hop : isOperator ((p.drop o).takeWhile (· ≠ NUL)) = true
  · -- the operator is one byte long, and at the next one there is a NUL
    obtain ⟨c, t, hdrop⟩ : ∃ c t, p.drop o = c :: t := by
      refine List.exists_cons_of_ne_nil ?_
      intro hnil
      rw [hnil] at hop
      cases hop
    have hlt : o < p.length := by
      have hlength := congrArg List.length hdrop
      rw [List.length_drop, List.length_cons] at hlength
      omega
    have htail : p.drop (o + 1) = t := by
      rw [← List.drop_drop, hdrop]
      rfl
    have hempty : t.takeWhile (· ≠ NUL) = [] := by
      rw [hdrop] at hop
      by_cases hc : c = NUL
      · rw [hc] at hop
        cases hop
      · rw [List.takeWhile_cons_of_pos (by simpa using hc)] at hop
        rw [isOperator_iff] at hop
        rcases hop with h | h
        · exact (List.cons.inj h).2
        · exact (List.cons.inj h).2
    refine ⟨1, [], Nat.le_refl 1, by decide, ?_⟩
    intro front rest _
    rw [hbelow 1 _ hlt, htail, hempty]
  · exact ⟨0, _, Nat.zero_le 1, hop, fun front rest _ => hbelow 0 _ (by omega)⟩

section
variable {l : Locals} {chunk s : Str} (hl : l.Ok) (hlen : chunk.length < maxLine)
  (hs : command chunk = some s) (ht : TakesRedir s)
include hl hlen hs ht

/-- What a line executes when the scan has found these words. -/
theorem scan_launches {input output : Option Str} {ws : List Str}
    (hscan : ScanFinds l chunk input output ws) (hws : ws.length < maxArg) :
    ((body l chunk).run (.ofExec fun _ => none) .terminal).launches.map Launch.argv = [ws] := by
  have hrel := body_scan_rel hl hlen hs ht hscan
  have hargvs : (runRedirected input output ws).Argvs (.ofExec fun _ => none) [ws] := by
    have hfits : Fits (.ofExec fun _ => none) ws 0 := fits_ofExec _ (by omega)
    have h := runRedirected_argvs (w := ()) (fun _ => rfl) hfits input output
    rwa [expand_ofExec] at h
  obtain ⟨ls, y, hpass, hls⟩ := hargvs .terminal
  rw [hrel.launches_eq, (ht.external.cascade_passes hpass).launches]
  exact hls

end

section
variable {l : Locals} {chunk s : Str} (hl : l.Ok) (hlen : chunk.length < maxLine)
  (hs : command chunk = some s) (hroom : (tokens s).length < maxArg) (hd : Dangling (tokens s))
include hl hlen hs hroom hd

/-- With NULL behind its own entries, a dangling line executes its own words. -/
theorem dangling_null {unused : PtrArr}
    (hargv : l.argv.drop ((tokens s).length + 1) = .null :: unused) :
    ∃ input output, ScanFinds l chunk input output (commandWords (tokens s)) := by
  rcases parsed_eq hl hlen hs with ⟨-, m, argv, hparsed, hp⟩ | ⟨hfull, -⟩
  swap
  · omega
  obtain ⟨pin, pout, acc, input, output, hscan, hin, hout, -, hacc, hlt⟩ :=
    dangling_scan hp hroom hd
  rw [hargv, redirScan_null, push_of_lt (by omega), Option.bind_some] at hscan
  exact ⟨input, output, m, argv, pin, pout, acc ++ [.null], hparsed, hscan, hin, hout, hacc⟩

/-- With another word behind its own entries, it executes that word as well. -/
theorem dangling_word {line w : Str} {heap : Mem} {o : Nat} {unused : PtrArr}
    (hmem : l.mem = line :: heap)
    (hargv : l.argv.drop ((tokens s).length + 1) = .at lineBlk o :: .null :: unused)
    (hw : cstrOf ((zap s ++ NUL :: lineRest line chunk s).drop o) = some w)
    (hop : ¬ isOperator w = true) :
    ∃ input output, ScanFinds l chunk input output (commandWords (tokens s) ++ [w]) := by
  rcases parsed_eq hl hlen hs with ⟨-, m, argv, hparsed, hp⟩ | ⟨hfull, -⟩
  swap
  · omega
  obtain ⟨pin, pout, acc, input, output, hscan, hin, hout, hnull, hacc, hlt⟩ :=
    dangling_scan hp hroom hd
  obtain ⟨line', backup, heap', post, hmem', hm, -⟩ := hp.mem
  have hstr : m.str (.at lineBlk o) = some w := by
    obtain ⟨rfl, rfl⟩ := List.cons.inj (hmem.symm.trans hmem')
    rw [hm]
    exact hw
  rw [not_isOperator_iff] at hop
  rw [hargv, redirScan_cons hstr, if_neg hop.1, if_neg hop.2, push_of_lt (by omega),
    Option.bind_some, redirScan_null, push_of_lt (by simp; omega), Option.bind_some] at hscan
  refine ⟨input, output, m, argv, pin, pout, _, hparsed, hscan, hin, hout, ?_⟩
  exact Mem.args_concat hacc hnull hstr

end

/-- What a dangling line executes depends on the lines before it. -/
theorem not_historyFree {chunk s : Str} (hlen : chunk.length < maxLine)
    (hs : command chunk = some s) (hroom : (tokens s).length ≤ 60) (ht : TakesRedir s)
    (hd : Dangling (tokens s)) : ¬ HistoryFree chunk s := by
  intro hfree
  have hmax : maxArg = 64 := rfl
  have hwords := (commandWords_sublist (tokens s)).length_le
  -- after a line with one word more
  obtain ⟨l₁, -, -, -, before₁, unused₁, hafter₁, -, -, hargv₁, hbefore₁⟩ :=
    after_wordLine (j := (tokens s).length) (k := 0) (by omega) (Nat.zero_le 1)
  have hnull : l₁.argv.drop ((tokens s).length + 1) = .null :: unused₁ := by
    rw [hargv₁, ← hbefore₁, List.drop_length_add_append]
    rfl
  obtain ⟨input₁, output₁, hscan₁⟩ := dangling_null hafter₁.ok hlen hs (by omega) hd hnull
  have h₁ := scan_launches hafter₁.ok hlen hs ht hscan₁ (by omega)
  -- after a line with two words more
  obtain ⟨-, -, -, -, -, hshort⟩ := command_eq_some hs []
  obtain ⟨k, w, hk, hop, hword⟩ := stale_word (zap s ++ NUL :: chunk.drop (s.length + 1))
    (2 * ((tokens s).length + 1))
  obtain ⟨l₂, front, rest, heap₂, before₂, unused₂, hafter₂, hmem, hfront, hargv₂, hbefore₂⟩ :=
    after_wordLine (j := (tokens s).length + 1) (k := k) (by omega) hk
  have hentry : l₂.argv.drop ((tokens s).length + 1) =
      .at lineBlk (2 * ((tokens s).length + 1) + k) :: .null :: unused₂ := by
    rw [hargv₂, List.drop_left' hbefore₂]
  have hlength : (zap s ++ NUL :: chunk.drop (s.length + 1)).length = chunk.length := by
    rw [List.length_append, zap_length, List.length_cons, List.length_drop]
    omega
  have hstr : cstrOf ((zap s ++ NUL :: lineRest (front ++ 'x' :: NUL :: rest) chunk s).drop
      (2 * ((tokens s).length + 1) + k)) = some w := by
    rw [line_after _ hshort, ← hlength]
    exact hword front rest hfront
  obtain ⟨input₂, output₂, hscan₂⟩ :=
    dangling_word hafter₂.ok hlen hs (by omega) hd hmem hentry hstr hop
  have h₂ := scan_launches hafter₂.ok hlen hs ht hscan₂ (by simp; omega)
  -- the second command has one argument more
  have hsame := hfree.launches _ _ l₁ l₂ hafter₁ hafter₂ (.ofExec fun _ => none) .terminal
  rw [hsame, h₂] at h₁
  have hlengths := congrArg List.length (List.cons.inj h₁).1
  rw [List.length_append, List.length_singleton] at hlengths
  omega

/-- The launches of a line of fewer than 60 words depend on that line only, and its
scan of `argv` ends at the NULL stored for it, exactly when it is no line for the
branch for redirections whose scan meets an operator as the last token. -/
theorem history_free_iff {chunk s : Str} (hlen : chunk.length < maxLine)
    (hs : command chunk = some s) (hwords : (words s).length < 60) :
    HistoryFree chunk s ↔ ¬ (TakesRedir s ∧ Dangling (tokens s)) := by
  -- a trailing blank makes one token more
  have hroom : (tokens s).length ≤ 60 := by
    rw [tokens, List.length_append]
    split
    · exact Nat.succ_le_of_lt hwords
    · exact hwords.le
  constructor
  · intro hfree hdangling
    exact not_historyFree hlen hs hroom hdangling.1 hdangling.2 hfree
  · intro hnamed
    exact historyFree hlen hs (hroom.trans_lt (by decide)) hnamed

/-- The line `cat < f`. -/
theorem catF_free : HistoryFree "cat < f\n".toList "cat < f".toList :=
  (history_free_iff (by decide) (by decide) (by decide)).mpr fun h => absurd h.2 (by decide)

/-- The line `cat <`. -/
theorem cat_depends : ¬ HistoryFree "cat <\n".toList "cat <".toList := by
  refine not_historyFree (by decide) (by decide) (by decide) ⟨by decide, ?_⟩ (by decide)
  intro word hword
  obtain rfl : "cat".toList = word := Option.some.inj hword
  decide

end UnixSys.Shell
