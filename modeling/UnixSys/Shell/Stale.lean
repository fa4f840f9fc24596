import UnixSys.Shell.Refine

/-!
# Stale — a scan that runs past the NULL

With an operator as its last token, a line makes the scan for redirections step
over the NULL that `parse` stored, into the entries that earlier lines left in
`argv`.
-/

namespace UnixSys.Shell

open Posix

/-! ## The branch for redirections -/

/-- The scan of the line finds these files and these words of the command, in the
memory and `argv` that `parse` left. -/
def ScanFinds (l : Locals) (chunk : Str) (input output : Option Str) (ws : List Str) : Prop :=
  ∃ m argv pin pout argv2, parsed l chunk = some (m, argv) ∧
    redirScan m argv .null .null [] = some (pin, pout, argv2) ∧
    PointsTo m pin input ∧ PointsTo m pout output ∧ m.args argv2 = some ws

theorem TakesRedir.head {s : Str} (ht : TakesRedir s) : ∃ word, (tokens s).head? = some word := by
  have hmem : '<' ∈ s ∨ '>' ∈ s := by simpa using ht.1
  have hword : ∃ word, word ∈ words s := by
    rcases hmem with h | h
    · obtain ⟨word, hword, -⟩ := exists_word_of_mem h (by decide)
      exact ⟨word, hword⟩
    · obtain ⟨word, hword, -⟩ := exists_word_of_mem h (by decide)
      exact ⟨word, hword⟩
  obtain ⟨word, hword⟩ := hword
  cases htokens : tokens s with
  | nil =>
      have htoken : word ∈ tokens s := List.mem_append_left _ hword
      rw [htokens] at htoken
      cases htoken
  | cons first _ => exact ⟨first, rfl⟩

theorem External.not_redirected {s : Str} (hext : External s) (ht : ¬ TakesRedir s) :
    (s.contains '<' || s.contains '>') = false := by
  obtain ⟨word, hword, hb⟩ := hext
  rw [← Bool.not_eq_true]
  intro hin
  refine ht ⟨hin, fun word' hword' => ?_⟩
  obtain rfl : word = word' := Option.some.inj (hword.symm.trans hword')
  exact hb

theorem TakesRedir.external {s : Str} (ht : TakesRedir s) : External s := by
  obtain ⟨word, hword⟩ := ht.head
  exact ⟨word, hword, ht.2 word hword⟩

theorem ScanFinds.room {l : Locals} {chunk s : Str} (hl : l.Ok) (hlen : chunk.length < maxLine)
    (hs : command chunk = some s) {input output : Option Str} {ws : List Str}
    (h : ScanFinds l chunk input output ws) : (tokens s).length < maxArg := by
  obtain ⟨m, argv, -, -, -, hparsed, -⟩ := h
  rcases parsed_eq hl hlen hs with ⟨hroom, -⟩ | ⟨-, hnone⟩
  · exact hroom
  · rw [hnone] at hparsed
    cases hparsed

/-- A line of the branch does what the branch does with what the scan found. -/
theorem body_scan_rel {l : Locals} {chunk s : Str} (hl : l.Ok) (hlen : chunk.length < maxLine)
    (hs : command chunk = some s) (ht : TakesRedir s) {input output : Option Str} {ws : List Str}
    (hscan : ScanFinds l chunk input output ws) :
    (body l chunk).Rel RoundOk (do
      let _ ← strcasecmp (tokens s).head? "exit".toList
      let _ ← strcasecmp (tokens s).head? "listall".toList
      let _ ← strcasecmp (tokens s).head? "compile".toList
      runRedirected input output ws) := by
  obtain ⟨m, argv, pin, pout, argv2, hparsed, hscan, hin, hout, hargv2⟩ := hscan
  obtain ⟨-, -, -, -, hnul, -⟩ := command_eq_some hs []
  rcases parsed_eq hl hlen hs with ⟨hroom, m', argv', hparsed', hp⟩ | ⟨-, hnone⟩
  · obtain ⟨rfl, rfl⟩ := Prod.mk.inj (Option.some.inj (hparsed.symm.trans hparsed'))
    rw [body_def, hparsed]
    exact dispatch_redir_rel hp hnul ht (redirCase_rel hp.memOk (hp.argv_length hl hroom)
      hl.expandedArgv hscan hin hout hargv2)
  · rw [hnone] at hparsed
    cases hparsed

/-- The scan of a line whose operators all have a file name after them. -/
theorem scanFinds_of_split {l : Locals} {chunk s : Str} (hl : l.Ok) (hlen : chunk.length < maxLine)
    (hs : command chunk = some s) (hroom : (tokens s).length < maxArg) {input output : Option Str}
    {ws : List Str} (h : splitRedir (tokens s) none none [] = some (input, output, ws)) :
    ScanFinds l chunk input output ws := by
  rcases parsed_eq hl hlen hs with ⟨-, m, argv, hparsed, hp⟩ | ⟨hfull, -⟩
  · obtain ⟨pin, pout, argv2, hscan, hin, hout, hargv2⟩ :=
      redirScan_eq h .null .null [] hp.args rfl rfl (by simp) rfl (by simpa using hroom)
    exact ⟨m, argv, pin, pout, argv2, hparsed, hscan, hin, hout, hargv2⟩
  · omega

/-- The words of the command are there, whatever the scan ran over. -/
theorem redirScan_args {m : Mem} {argv : PtrArr} {pin pout : Ptr} {acc : List Ptr} {ws : List Str}
    {files : Ptr × Ptr × List Ptr} (h : redirScan m argv pin pout acc = some files)
    (hnull : .null ∉ acc) (hacc : m.args (acc ++ [.null]) = some ws) :
    ∃ ws', m.args files.2.2 = some ws' := by
  induction argv, pin, pout, acc using redirScan.induct generalizing ws with
  | case1 => cases h
  | case2 => cases h
  | case3 argv pin pout acc =>
      rw [redirScan_null] at h
      obtain ⟨argv2, hpush, hfiles⟩ := Option.bind_eq_some_iff.mp h
      rw [push] at hpush
      split at hpush
      · cases hpush
        cases hfiles
        exact ⟨ws, hacc⟩
      · cases hpush
  | case4 => cases h
  | case5 b o next argv pin pout acc ihin ihout ihkeep =>
      cases hs : m.cstr b o with
      | none =>
          rw [redirScan, hs] at h
          cases h
      | some s =>
          rw [redirScan_cons hs] at h
          split at h
          · exact ihin h hnull hacc
          · split at h
            · exact ihout h hnull hacc
            · obtain ⟨argv2, hpush, hrest⟩ := Option.bind_eq_some_iff.mp h
              rw [push] at hpush
              split at hpush
              · cases hpush
                exact ihkeep _ hrest (by simp [hnull]) (Mem.args_concat hacc hnull hs)
              · cases hpush

theorem redirTo_unnamed {m : Mem} {p : Ptr} (redirection : Str)
    (h : ∀ file, ¬ PointsTo m p file) : redirTo m redirection p = .ub := by
  cases p with
  | null => exact absurd rfl (h none)
  | undef => rfl
  | «at» b o =>
      have hs : m.str (.at b o) = none := by
        rw [Option.eq_none_iff_forall_ne_some]
        exact fun file hfile => h (some file) hfile
      rw [redirTo, hs]
      · rfl
      · rintro ⟨⟩

/-- A line of the branch runs into undefined behaviour when its scan finds nothing:
before it opens a file, or once it has opened the one for input. -/
theorem body_unfound_rel {l : Locals} {chunk s : Str} (hl : l.Ok) (hlen : chunk.length < maxLine)
    (hs : command chunk = some s) (hroom : (tokens s).length < maxArg) (ht : TakesRedir s)
    (hscan : ∀ input output ws, ¬ ScanFinds l chunk input output ws) :
    ∃ input, (body l chunk).Rel (fun _ (_ : Unit) => True) (do
      let _ ← strcasecmp (tokens s).head? "exit".toList
      let _ ← strcasecmp (tokens s).head? "listall".toList
      let _ ← strcasecmp (tokens s).head? "compile".toList
      let _ ← dup 0
      let _ ← dup 1
      redirectTo "<".toList input
      .ub) := by
  obtain ⟨-, -, -, -, hnul, -⟩ := command_eq_some hs []
  rcases parsed_eq hl hlen hs with ⟨-, m, argv, hparsed, hp⟩ | ⟨hfull, -⟩
  swap
  · omega
  rw [body_def, hparsed]
  suffices h : ∃ input, (redirCase m argv l.expandedArgv).Rel (fun _ (_ : Unit) => True) (do
      let _ ← dup 0
      let _ ← dup 1
      redirectTo "<".toList input
      .ub) by
    obtain ⟨input, h⟩ := h
    exact ⟨input, dispatch_redir_rel hp hnul ht h⟩
  cases hfiles : redirScan m argv .null .null [] with
  -- the scan itself reads an entry that holds no string
  | none =>
      refine ⟨none, ?_⟩
      rw [redirCase, hfiles]
      exact .call _ fun _ _ => .call _ fun _ _ => .ub
  | some files =>
      obtain ⟨pin, pout, argv2⟩ := files
      obtain ⟨ws, hargv2⟩ := redirScan_args hfiles List.not_mem_nil rfl
      -- one of the two file names is no string; the one for input is looked at first
      by_cases hin : ∃ input, PointsTo m pin input
      · obtain ⟨input, hin⟩ := hin
        have hout : ∀ output, ¬ PointsTo m pout output := fun output hout =>
          hscan input output ws ⟨m, argv, pin, pout, argv2, hparsed, hfiles, hin, hout, hargv2⟩
        refine ⟨input, ?_⟩
        rw [redirCase, hfiles]
        refine .call _ fun _ _ => .call _ fun _ _ => ?_
        show Prog.Rel _ (redirTo m _ pin >>= fun _ => redirTo m _ pout >>= _) _
        rw [redirTo_eq _ hin, redirTo_unnamed _ hout]
        exact (Prog.Rel.refl (fun _ => rfl) _).bind fun _ _ _ => .ub
      · refine ⟨none, ?_⟩
        rw [redirCase, hfiles]
        refine .call _ fun _ _ => .call _ fun _ _ => ?_
        show Prog.Rel _ (redirTo m _ pin >>= _) _
        rw [redirTo_unnamed _ (not_exists.mp hin)]
        exact .ub

/-! ## Dangling lines -/

theorem Dangling.head {ts : List Str} (h : Dangling ts) : ∃ word, ts.head? = some word := by
  cases ts with
  | nil =>
      rw [Dangling, splitRedir] at h
      cases h
  | cons word ws => exact ⟨word, rfl⟩

/-- The scan of a dangling line goes on behind the NULL, having kept the command
words of the line. -/
theorem redirScan_dangling {m : Mem} {ts ws : List Str} {input output : Option Str}
    (h : splitRedir ts input output ws = none) {argv : PtrArr} {pin pout : Ptr} {acc : List Ptr}
    (hargv : m.args argv = some ts) (hin : PointsTo m pin input) (hout : PointsTo m pout output)
    (hnull : .null ∉ acc) (hacc : m.args (acc ++ [.null]) = some ws)
    (hlen : acc.length + ts.length ≤ maxArg) :
    ∃ pin' pout' acc' input' output',
      redirScan m argv pin pout acc = redirScan m (argv.drop (ts.length + 1)) pin' pout' acc' ∧
      PointsTo m pin' input' ∧ PointsTo m pout' output' ∧ .null ∉ acc' ∧
      m.args (acc' ++ [.null]) = some (ws ++ commandWords ts) ∧
      acc'.length < acc.length + ts.length := by
  induction ts, input, output, ws using splitRedir.induct generalizing argv pin pout acc with
  | case1 input output ws => cases h
  -- the last token is an operator: the NULL is taken for its file, and stepped over
  | case2 w input output ws hop =>
      obtain ⟨b, o, r, rfl, hw, hr⟩ := Mem.args_eq_cons hargv
      obtain ⟨r, rfl⟩ := Mem.args_eq_nil hr
      have hwords : ws ++ commandWords [w] = ws := by
        rw [commandWords, if_pos hop, List.append_nil]
      rw [hwords, redirScan_cons hw]
      split
      · exact ⟨.null, pout, acc, none, output, rfl, rfl, hout, hnull, hacc, Nat.lt_succ_self _⟩
      · rename_i hlt
        rw [isOperator_iff] at hop
        rw [if_pos (hop.resolve_left hlt)]
        exact ⟨pin, .null, acc, input, none, rfl, hin, rfl, hnull, hacc, Nat.lt_succ_self _⟩
  | case3 w input output ws hop =>
      rw [splitRedir, if_neg hop] at h
      cases h
  | case4 next rest input output ws ih =>
      obtain ⟨b, o, r, rfl, hw, hr⟩ := Mem.args_eq_cons hargv
      obtain ⟨b', o', r, rfl, hnext, hr⟩ := Mem.args_eq_cons hr
      rw [List.length_cons, List.length_cons] at hlen
      rw [splitRedir, if_pos rfl] at h
      obtain ⟨pin', pout', acc', input', output', hscan, hin', hout', hnull', hacc', hlen'⟩ :=
        ih h hr (show PointsTo m (.at b' o') (some next) from hnext) hout hnull hacc (by omega)
      have hop : isOperator "<".toList = true := rfl
      rw [commandWords, if_pos hop]
      refine ⟨pin', pout', acc', input', output', ?_, hin', hout', hnull', hacc', ?_⟩
      · rw [redirScan_cons hw, if_pos rfl, hscan]
        rfl
      · rw [List.length_cons, List.length_cons]
        omega
  | case5 next rest input output ws hne ih =>
      obtain ⟨b, o, r, rfl, hw, hr⟩ := Mem.args_eq_cons hargv
      obtain ⟨b', o', r, rfl, hnext, hr⟩ := Mem.args_eq_cons hr
      rw [List.length_cons, List.length_cons] at hlen
      rw [splitRedir, if_neg hne, if_pos rfl] at h
      obtain ⟨pin', pout', acc', input', output', hscan, hin', hout', hnull', hacc', hlen'⟩ :=
        ih h hr hin (show PointsTo m (.at b' o') (some next) from hnext) hnull hacc (by omega)
      have hop : isOperator ">".toList = true := rfl
      rw [commandWords, if_pos hop]
      refine ⟨pin', pout', acc', input', output', ?_, hin', hout', hnull', hacc', ?_⟩
      · rw [redirScan_cons hw, if_neg hne, if_pos rfl, hscan]
        rfl
      · rw [List.length_cons, List.length_cons]
        omega
  | case6 w next rest input output ws hlt hgt ih =>
      obtain ⟨b, o, r, rfl, hw, hr⟩ := Mem.args_eq_cons hargv
      obtain ⟨b', o', r', rfl, -, -⟩ := Mem.args_eq_cons hr
      rw [List.length_cons, List.length_cons] at hlen
      rw [splitRedir, if_neg hlt, if_neg hgt] at h
      have hacc' : m.args (acc ++ [.at b o] ++ [.null]) = some (ws ++ [w]) :=
        Mem.args_concat hacc hnull hw
      obtain ⟨pin', pout', acc', input', output', hscan, hin', hout', hnull', hwords, hlen'⟩ :=
        ih h hr hin hout (by simp [hnull]) hacc' (by simp; omega)
      have hop := not_isOperator_iff.mpr ⟨hlt, hgt⟩
      rw [commandWords, if_neg hop]
      refine ⟨pin', pout', acc', input', output', ?_, hin', hout', hnull', ?_, ?_⟩
      · rw [redirScan_cons hw, if_neg hlt, if_neg hgt, push_of_lt (by omega), Option.bind_some,
          hscan]
        rfl
      · rwa [List.append_assoc] at hwords
      · rw [List.length_append, List.length_singleton] at hlen'
        rw [List.length_cons, List.length_cons]
        simp only [List.length_cons] at hlen'
        omega

/-- The scan of a dangling line, in a round of the read loop. -/
theorem dangling_scan {chunk s : Str} {l : Locals} {m : Mem} {argv : PtrArr}
    (hp : Parsed chunk s l m argv) (hroom : (tokens s).length < maxArg)
    (hd : Dangling (tokens s)) : ∃ pin pout acc input output,
      redirScan m argv .null .null [] =
        redirScan m (l.argv.drop ((tokens s).length + 1)) pin pout acc ∧
      PointsTo m pin input ∧ PointsTo m pout output ∧ .null ∉ acc ∧
      m.args (acc ++ [.null]) = some (commandWords (tokens s)) ∧
      acc.length < (tokens s).length := by
  obtain ⟨pin, pout, acc, input, output, hscan, hin, hout, hnull, hacc, hlt⟩ :=
    redirScan_dangling hd hp.args rfl rfl List.not_mem_nil rfl
      ((Nat.zero_add _).trans_le hroom.le)
  rw [hp.drop_argv] at hscan
  rw [List.length_nil, Nat.zero_add] at hlt
  exact ⟨pin, pout, acc, input, output, hscan, hin, hout, hnull, hacc, hlt⟩

end UnixSys.Shell
