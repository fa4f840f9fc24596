import UnixSys.Shell.Meaning
import UnixSys.Posix.Sequential
import Mathlib.Data.List.Forall2

/-!
# Refine — the code makes the calls of its meaning

`body_rel`: one round of the read loop on any state of the shell's memory makes
the same calls as `runLine` on the command string, unless the redirection scan
runs past the NULL of `argv`. What earlier lines left in the buffers and arrays
does not matter.
-/

namespace UnixSys.Shell

open Posix

/-- `line` and `line_backup` have the size that `main` declares. -/
def MemOk (m : Mem) : Prop :=
  ∃ line backup heap, m = line :: backup :: heap ∧
    line.length = maxLine ∧ backup.length = maxLine

theorem MemOk.append {m : Mem} (h : MemOk m) (x : Mem) : MemOk (m ++ x) := by
  obtain ⟨line, backup, heap, rfl, hl, hb⟩ := h
  exact ⟨line, backup, heap ++ x, rfl, hl, hb⟩

/-- The buffers and arrays of `main` have the sizes it declares; their contents
are arbitrary. -/
structure Locals.Ok (l : Locals) : Prop where
  mem : MemOk l.mem
  argv : l.argv.length = maxArg
  expandedArgv : l.expandedArgv.length = maxArg

theorem Locals.start_ok {line backup : Str} (hline : line.length = maxLine)
    (hbackup : backup.length = maxLine) : (Locals.start line backup).Ok :=
  ⟨⟨line, backup, [], rfl, hline, hbackup⟩, List.length_replicate, List.length_replicate⟩

theorem Locals.zero_ok : Locals.zero.Ok := start_ok List.length_replicate List.length_replicate

/-- The relation between a round of the loop and its meaning: whatever else it
left, the state is good for the next round. -/
def RoundOk (l : Locals) (_ : Unit) : Prop := l.Ok

/-! ## execute and expand_wildcards -/

theorem execute_eq {m : Mem} {argv : PtrArr} {args : List Str} (h : m.args argv = some args) :
    execute m argv = runCommand args := by
  rw [execute, runCommand, h]
  refine congrArg Prog.fork (funext fun r => ?_)
  cases r <;> rfl

theorem storePaths_cons (m : Mem) (ex : PtrArr) (j : Nat) (path : Str) (paths : List Str) :
    storePaths m ex j (path :: paths) =
      (PtrArr.store ex j (.at m.length 0)).bind fun ex =>
        storePaths (m ++ [path ++ [NUL]]) ex (j + 1) paths := rfl

theorem storePaths_eq (m : Mem) (ex : PtrArr) (j : Nat) (paths acc : List Str)
    (hj : j ≤ ex.length) (hp : ∀ p ∈ paths, NUL ∉ p) (hnull : .null ∉ ex.take j)
    (hacc : m.args (ex.take j ++ [.null]) = some acc) :
    (ex.length < j + paths.length ∧ storePaths m ex j paths = none) ∨
    (j + paths.length ≤ ex.length ∧ ∃ x ex',
      storePaths m ex j paths = some (m ++ x, ex', j + paths.length) ∧
      ex'.length = ex.length ∧ .null ∉ ex'.take (j + paths.length) ∧
      Mem.args (m ++ x) (ex'.take (j + paths.length) ++ [.null]) = some (acc ++ paths)) := by
  induction paths generalizing m ex j acc with
  | nil => exact .inr ⟨hj, [], ex, by simp [storePaths], rfl, hnull, by simpa using hacc⟩
  | cons path paths ih =>
      rw [storePaths_cons, List.length_cons, show j + (paths.length + 1) = j + 1 + paths.length by omega]
      by_cases hlt : j < ex.length
      · have hstr : Mem.str (m ++ [path ++ [NUL]]) (.at m.length 0) = some path :=
          Mem.str_strdup (m := m) (hp path (by simp))
        have htake : (ex.set j (.at m.length 0)).take (j + 1) = ex.take j ++ [.at m.length 0] := by
          rw [List.set_eq_take_append_cons_drop, if_pos hlt, take_stored ex j _ hlt]
        have hargs := Mem.args_concat (Mem.args_append hacc [path ++ [NUL]]) hnull hstr
        have hih := ih (m ++ [path ++ [NUL]]) (ex.set j (.at m.length 0)) (j + 1) (acc ++ [path])
          (by rw [List.length_set]; omega) (fun p h => hp p (by simp [h]))
          (by rw [htake]; simp [hnull])
          (by rw [htake]; exact hargs)
        rw [PtrArr.store_of_lt hlt, Option.bind_some]
        rw [List.length_set] at hih
        rcases hih with ⟨h1, h2⟩ | ⟨h1, x, ex', h2, h3, h4, h5⟩
        · exact .inl ⟨h1, h2⟩
        · refine .inr ⟨h1, [path ++ [NUL]] ++ x, ex', ?_, h3, h4, ?_⟩
          · rw [h2, List.append_assoc]
          · rw [← List.append_assoc, h5, List.append_assoc, List.singleton_append]
      · refine .inl ⟨by omega, ?_⟩
        rw [PtrArr.store_of_ge (by omega), Option.bind_none]

/-- What `expand_wildcards` leaves: more blocks, and an `expanded_argv` that
denotes the expanded words. -/
def Expanded (m : Mem) (r : Mem × PtrArr) (args : List Str) : Prop :=
  (∃ x, r.1 = m ++ x) ∧ r.2.length = maxArg ∧ r.1.args r.2 = some args

theorem expandWildcards_rel (m : Mem) (argv ex : PtrArr) (j : Nat) (ws acc : List Str)
    (hargv : m.args argv = some ws) (hex : ex.length = maxArg) (hj : j ≤ maxArg)
    (hlen : acc.length = j) (hnull : .null ∉ ex.take j)
    (hacc : m.args (ex.take j ++ [.null]) = some acc) :
    Prog.Rel (Expanded m) (expandWildcards m argv ex j) (expandWords ws acc) := by
  induction argv generalizing m ex j ws acc with
  | nil => cases hargv
  | cons p argv ih =>
      by_cases hp : p = .null
      · subst hp
        cases hargv
        rw [expandWildcards, expandWords, hlen]
        by_cases hlt : j < maxArg
        · rw [if_pos hlt, PtrArr.store_of_lt (by omega)]
          refine .ret ⟨⟨[], by simp⟩, by simpa using hex, ?_⟩
          rw [List.set_eq_take_append_cons_drop, if_pos (by omega), Mem.args_append_null]
          exact hacc
        · rw [if_neg hlt, PtrArr.store_of_ge (by omega)]
          exact .ub
      obtain ⟨w, ws', hw, hargv', rfl⟩ := Mem.args_cons_some hp hargv
      cases p with
      | undef => cases hw
      | null => exact absurd rfl hp
      | «at» b o =>
          have hcw : m.cstr b o = some w := hw
          rw [expandWildcards, expandWords, hcw]
          simp only [Prog.lift_some, Prog.ret_bind, glob, Prog.call_bind]
          refine .call _ fun r hr => ?_
          -- what is stored is the matches, or the word itself where there are none
          have hpaths : ∀ q ∈ Option.getD r [w], NUL ∉ q := by
            cases r with
            | none =>
                intro q hq
                rw [List.mem_singleton.mp hq]
                exact Mem.not_mem_of_str hw
            | some ms =>
                intro q hq
                exact ((hr ms rfl).2.1 q hq).2
          rcases storePaths_eq m ex j _ acc (by omega) hpaths hnull hacc with
            ⟨h1, h2⟩ | ⟨h1, x, ex', h2, h3, h4, h5⟩
          · rw [h2, if_neg (by omega)]
            exact .ub
          · rw [h2, if_pos (by omega)]
            refine (ih (m ++ x) ex' _ ws' _ (Mem.args_append hargv' x) (by omega) (by omega)
              (by simp [hlen]) h4 h5).mono ?_
            rintro r' args ⟨⟨y, hy⟩, hl, ha⟩
            exact ⟨⟨x ++ y, by rw [hy, List.append_assoc]⟩, hl, ha⟩

/-- Expansion into `expanded_argv` from its start. -/
theorem expand_rel {m : Mem} {argv ex : PtrArr} {ws : List Str}
    (hargv : m.args argv = some ws) (hex : ex.length = maxArg) :
    Prog.Rel (Expanded m) (expandWildcards m argv ex 0) (expandWords ws []) :=
  expandWildcards_rel m argv ex 0 ws [] hargv hex (by simp [maxArg]) rfl (by simp) rfl

/-- `expand_wildcards`, then `execute`, then a rest that only needs to know that
there may be more blocks. -/
theorem expandExecute_rel {α : Type} {R : α → Unit → Prop} {m : Mem} {argv ex : PtrArr}
    {ws : List Str} {f : Mem → PtrArr → Prog α} {g : Prog Unit}
    (hargv : m.args argv = some ws) (hex : ex.length = maxArg)
    (hfg : ∀ x ex', ex'.length = maxArg → Prog.Rel R (f (m ++ x) ex') g) :
    Prog.Rel R
      (do let (m, ex) ← expandWildcards m argv ex 0
          execute m ex
          f m ex)
      (do runWords ws
          g) := by
  rw [runWords, bind_assoc]
  refine (expand_rel hargv hex).bind ?_
  rintro ⟨m', ex'⟩ args ⟨⟨x, rfl⟩, hlen, hargs⟩
  simp only at hlen hargs ⊢
  rw [execute_eq hargs]
  exact (Prog.Rel.refl (fun _ => rfl) _).bind fun _ _ _ => hfg x ex' hlen

theorem printf_rel {α : Type} {R : α → Unit → Prop} (t : Str) {a : α} (h : R a ()) :
    Prog.Rel R (do printf t; pure a) (printf t) :=
  .call _ fun _ _ => .ret h

/-! ## The branches without loops -/

section
variable {m : Mem} {argv ex : PtrArr} {ts : List Str}

/-- What a branch that leaves `argv` alone leaves behind. -/
structure Leaves (m : Mem) (argv : PtrArr) (l : Locals) (_ : Unit) : Prop where
  mem : ∃ x, l.mem = m ++ x
  argv : l.argv = argv
  expandedArgv : l.expandedArgv.length = maxArg

theorem Leaves.roundOk (hm : MemOk m) (ha : argv.length = maxArg) {l : Locals} {u : Unit}
    (h : Leaves m argv l u) : RoundOk l u := by
  obtain ⟨⟨x, hx⟩, hargv, hex⟩ := h
  exact ⟨hx ▸ hm.append x, hargv ▸ ha, hex⟩

theorem otherCase_rel (hex : ex.length = maxArg) (hargv : m.args argv = some ts) :
    Prog.Rel (Leaves m argv) (otherCase m argv ex) (do runWords ts; printf prompt) :=
  expandExecute_rel (R := Leaves m argv)
    (f := fun m ex => do printf prompt; pure (Locals.mk m argv ex)) (g := printf prompt)
    hargv hex fun x _ h => printf_rel _ ⟨⟨x, rfl⟩, rfl, h⟩

theorem listallCase_rel (hm : MemOk m) (ha : argv.length = maxArg) (hex : ex.length = maxArg) :
    Prog.Rel RoundOk (listallCase m argv ex)
      (do runCommand ["ls".toList, "-la".toList]; printf prompt) := by
  obtain ⟨a, b, c, r, rfl⟩ : ∃ a b c r, argv = a :: b :: c :: r := by
    match argv, ha with
    | a :: b :: c :: r, _ => exact ⟨a, b, c, r, rfl⟩
  have hargs : Mem.args (m ++ ["ls".toList ++ [NUL]] ++ ["-la".toList ++ [NUL]])
      (.at m.length 0 :: .at (m ++ ["ls".toList ++ [NUL]]).length 0 :: .null :: r) =
      some ["ls".toList, "-la".toList] := by
    refine Mem.args_cons (Mem.str_append (Mem.str_strdup ?_) _)
      (Mem.args_cons (Mem.str_strdup ?_) rfl)
    · decide
    · decide
  have hexec := execute_eq hargs
  have hstore : listallCase m (a :: b :: c :: r) ex = (do
      execute (m ++ ["ls".toList ++ [NUL]] ++ ["-la".toList ++ [NUL]])
        (.at m.length 0 :: .at (m ++ ["ls".toList ++ [NUL]]).length 0 :: .null :: r)
      printf prompt
      pure ⟨m ++ ["ls".toList ++ [NUL]] ++ ["-la".toList ++ [NUL]],
        .at m.length 0 :: .at (m ++ ["ls".toList ++ [NUL]]).length 0 :: .null :: r, ex⟩) := by
    simp [listallCase, Mem.strdup, PtrArr.store]
  rw [hstore, hexec]
  exact (Prog.Rel.refl (fun _ => rfl) _).bind fun _ _ _ =>
    printf_rel _ ⟨(hm.append _).append _, ha, hex⟩

/-- `compile` with its word: the argument list handed to `expand_wildcards`. -/
theorem compileCase_rel (hm : MemOk m) (ha : argv.length = maxArg) (hex : ex.length = maxArg)
    (hargv : m.args argv = some ts) (hts : ts ≠ []) :
    Prog.Rel RoundOk (compileCase m argv ex) (runCompile ts) := by
  obtain ⟨a, p, b, c, d, r, rfl⟩ : ∃ a p b c d r, argv = a :: p :: b :: c :: d :: r := by
    match argv, ha with
    | a :: p :: b :: c :: d :: r, _ => exact ⟨a, p, b, c, d, r, rfl⟩
  let blocks (name : Str) : Mem :=
    ["gcc".toList ++ [NUL], "-o".toList ++ [NUL], name.take (nameLength name) ++ [NUL]]
  let argv' : PtrArr := .at m.length 0 :: p :: .at (m.length + 1) 0 :: .at (m.length + 2) 0 ::
    .null :: r
  have hstore : compileCase m (a :: p :: b :: c :: d :: r) ex = (do
      let name ← Prog.lift (Mem.str (m ++ ["gcc".toList ++ [NUL], "-o".toList ++ [NUL]]) p)
      let (m, ex) ← expandWildcards (m ++ blocks name) argv' ex 0
      execute m ex
      printf prompt
      pure ⟨m, argv', ex⟩) := by
    simp [compileCase, Mem.strdup, PtrArr.store, blocks, argv']
  have hanull : a ≠ .null := by
    rintro rfl
    cases hargv
    exact hts rfl
  obtain ⟨t, ts', -, hrest, rfl⟩ := Mem.args_cons_some hanull hargv
  rw [hstore]
  by_cases hp : p = .null
  · -- no word after `compile`: `strlen` is called on NULL
    subst hp
    cases hrest
    exact .ub
  obtain ⟨name, ts'', hname, -, rfl⟩ := Mem.args_cons_some hp hrest
  have hnul : NUL ∉ name.take (nameLength name) := fun h =>
    Mem.not_mem_of_str hname (List.mem_of_mem_take h)
  have hargs : Mem.args (m ++ blocks name) argv' =
      some ["gcc".toList, name, "-o".toList, name.take (nameLength name)] := by
    refine Mem.args_cons ?_ (Mem.args_cons (Mem.str_append hname _)
      (Mem.args_cons ?_ (Mem.args_cons ?_ rfl)))
    · exact Mem.str_block (blocks name) 0 _ (by decide) rfl
    · exact Mem.str_block (blocks name) 1 _ (by decide) rfl
    · exact Mem.str_block (blocks name) 2 _ hnul rfl
  rw [Mem.str_append hname, runCompile]
  exact expandExecute_rel (R := RoundOk)
    (f := fun m ex => do printf prompt; pure (Locals.mk m argv' ex)) (g := printf prompt)
    hargs hex fun x _ h => printf_rel _ ⟨(hm.append _).append x, ha, h⟩

end

/-! ## The redirection branch -/

/-- `p` points to the file name `file`; it is NULL when there is none. -/
def PointsTo (m : Mem) (p : Ptr) : Option Str → Prop
  | none => p = .null
  | some file => m.str p = some file

theorem push_of_lt {a : List Ptr} (h : a.length < maxArg) (p : Ptr) :
    push a p = some (a ++ [p]) := if_pos h

theorem redirScan_null (m : Mem) (argv : PtrArr) (pin pout : Ptr) (acc : List Ptr) :
    redirScan m (.null :: argv) pin pout acc =
      (push acc .null).bind fun argv2 => some (pin, pout, argv2) := by
  cases argv <;> rfl

/-- One round of the scan at an entry that points to the string `s`. -/
theorem redirScan_cons {m : Mem} {b o : Nat} {s : Str} (h : m.str (.at b o) = some s)
    (next : Ptr) (argv : PtrArr) (pin pout : Ptr) (acc : List Ptr) :
    redirScan m (.at b o :: next :: argv) pin pout acc =
      if s = "<".toList then redirScan m argv next pout acc
      else if s = ">".toList then redirScan m argv pin next acc
      else (push acc (.at b o)).bind (redirScan m (next :: argv) pin pout) := by
  have hs : m.cstr b o = some s := h
  rw [redirScan, hs]
  rfl

/-- The scan on `argv` advanced by `i`, with `argv2` filled so far: it ends at
the NULL that `parse` stored, and finds what `splitRedir` does. -/
theorem redirScan_eq {m : Mem} {ts ws ws' : List Str} {input output input' output' : Option Str}
    (h : splitRedir ts input output ws = some (input', output', ws'))
    {argv : PtrArr} (pin pout : Ptr) (acc : List Ptr) (hargv : m.args argv = some ts)
    (hin : PointsTo m pin input) (hout : PointsTo m pout output) (hnull : .null ∉ acc)
    (hacc : m.args (acc ++ [.null]) = some ws) (hlen : acc.length + ts.length < maxArg) :
    ∃ pin' pout' argv2, redirScan m argv pin pout acc = some (pin', pout', argv2) ∧
      PointsTo m pin' input' ∧ PointsTo m pout' output' ∧ m.args argv2 = some ws' := by
  induction ts, input, output, ws using splitRedir.induct generalizing argv pin pout acc with
  -- the scan is at the NULL that `parse` stored
  | case1 input output ws =>
      obtain ⟨r, rfl⟩ := Mem.args_eq_nil hargv
      cases h
      refine ⟨pin, pout, acc ++ [.null], ?_, hin, hout, hacc⟩
      rw [redirScan_null, push_of_lt hlen, Option.bind_some]
  | case2 w input output ws hop =>
      rw [splitRedir, if_pos hop] at h
      cases h
  | case3 w input output ws hop =>
      obtain ⟨b, o, r, rfl, hw, hr⟩ := Mem.args_eq_cons hargv
      obtain ⟨r, rfl⟩ := Mem.args_eq_nil hr
      rw [splitRedir, if_neg hop] at h
      cases h
      rw [not_isOperator_iff] at hop
      rw [List.length_singleton] at hlen
      refine ⟨pin, pout, acc ++ [.at b o] ++ [.null], ?_, hin, hout, ?_⟩
      · rw [redirScan_cons hw, if_neg hop.1, if_neg hop.2, push_of_lt (by omega),
          Option.bind_some, redirScan_null, push_of_lt (by simpa using hlen), Option.bind_some]
      · exact Mem.args_concat hacc hnull hw
  | case4 next rest input output ws ih =>
      obtain ⟨b, o, r, rfl, hw, hr⟩ := Mem.args_eq_cons hargv
      obtain ⟨b', o', r, rfl, hnext, hr⟩ := Mem.args_eq_cons hr
      rw [List.length_cons, List.length_cons] at hlen
      rw [splitRedir, if_pos rfl] at h
      obtain ⟨pin', pout', argv2, hscan, hrest⟩ :=
        ih h (.at b' o') pout acc hr hnext hout hnull hacc (by omega)
      refine ⟨pin', pout', argv2, ?_, hrest⟩
      rw [redirScan_cons hw, if_pos rfl, hscan]
  | case5 next rest input output ws hne ih =>
      obtain ⟨b, o, r, rfl, hw, hr⟩ := Mem.args_eq_cons hargv
      obtain ⟨b', o', r, rfl, hnext, hr⟩ := Mem.args_eq_cons hr
      rw [List.length_cons, List.length_cons] at hlen
      rw [splitRedir, if_neg hne, if_pos rfl] at h
      obtain ⟨pin', pout', argv2, hscan, hrest⟩ :=
        ih h pin (.at b' o') acc hr hin hnext hnull hacc (by omega)
      refine ⟨pin', pout', argv2, ?_, hrest⟩
      rw [redirScan_cons hw, if_neg hne, if_pos rfl, hscan]
  -- a word of the command goes to `argv2`
  | case6 w next rest input output ws hlt hgt ih =>
      obtain ⟨b, o, r, rfl, hw, hr⟩ := Mem.args_eq_cons hargv
      obtain ⟨b', o', r', rfl, -, -⟩ := Mem.args_eq_cons hr
      rw [List.length_cons, List.length_cons] at hlen
      rw [splitRedir, if_neg hlt, if_neg hgt] at h
      have hacc' : m.args (acc ++ [.at b o] ++ [.null]) = some (ws ++ [w]) :=
        Mem.args_concat hacc hnull hw
      obtain ⟨pin', pout', argv2, hscan, hrest⟩ :=
        ih h pin pout _ hr hin hout (by simp [hnull]) hacc' (by simp; omega)
      refine ⟨pin', pout', argv2, ?_, hrest⟩
      rw [redirScan_cons hw, if_neg hlt, if_neg hgt, push_of_lt (by omega), Option.bind_some,
        hscan]

theorem redirTo_eq {m : Mem} {p : Ptr} {file : Option Str} (redirection : Str)
    (h : PointsTo m p file) : redirTo m redirection p = redirectTo redirection file := by
  cases file with
  | none =>
      cases h
      rfl
  | some file =>
      cases p with
      | undef => cases h
      | null => cases h
      | «at» b o =>
          have hs : m.str (.at b o) = some file := h
          simp [redirTo, redirectTo, hs]

/-- The branch once the scan has found its files and words. -/
theorem redirCase_rel {m : Mem} {argv ex argv2 : PtrArr} {ws : List Str} {pin pout : Ptr}
    {input output : Option Str} (hm : MemOk m) (ha : argv.length = maxArg)
    (hex : ex.length = maxArg)
    (hscan : redirScan m argv .null .null [] = some (pin, pout, argv2))
    (hin : PointsTo m pin input) (hout : PointsTo m pout output)
    (hargv2 : m.args argv2 = some ws) :
    Prog.Rel RoundOk (redirCase m argv ex) (runRedirected input output ws) := by
  rw [redirCase, runRedirected, hscan]
  simp only [dup, Prog.call_bind, Prog.lift_some, Prog.ret_bind, redirTo_eq _ hin,
    redirTo_eq _ hout]
  refine .call _ fun originalStdin _ => .call _ fun originalStdout _ => ?_
  refine (Prog.Rel.refl (fun _ => rfl) _).bind fun _ _ _ => ?_
  refine (Prog.Rel.refl (fun _ => rfl) _).bind fun _ _ _ => ?_
  refine expandExecute_rel (R := RoundOk)
    (f := fun m ex => do
      dup2 originalStdin 0
      dup2 originalStdout 1
      close originalStdin
      close originalStdout
      printf prompt
      pure (Locals.mk m argv ex))
    (g := do
      dup2 originalStdin 0
      dup2 originalStdout 1
      close originalStdin
      close originalStdout
      printf prompt) hargv2 hex fun x _ hex' => ?_
  refine .call _ fun _ _ => .call _ fun _ _ => .call _ fun _ _ => .call _ fun _ _ => ?_
  exact printf_rel _ ⟨hm.append x, ha, hex'⟩

/-! ## Splitting at `;` -/

theorem runFields_cons (f : Str) (fs : List Str) :
    runFields (f :: fs) = (do runField f; runFields fs) := rfl

/-- One field of `line_backup`, taken out by `strtok`, trimmed and parsed: the
tokens are those of the trimmed field, and the unread text is as it was. -/
theorem strtok_trim {d : Byte} (pre post : Str) {u tok : Str} {fs : List Str} (hu : NUL ∉ u)
    (h : fields d u = tok :: fs) : ∃ s₁ start saved pre' v u',
    strtok d (pre ++ (u ++ NUL :: post)) pre.length = some (s₁, some (start, saved)) ∧
    trim s₁ start = some (pre' ++ (trimmed tok ++ NUL :: v), pre'.length) ∧
    (∀ w : Str, w.length = (trimmed tok).length → ∃ pre'',
      pre' ++ (w ++ NUL :: v) = pre'' ++ (u' ++ NUL :: post) ∧ pre''.length = saved) ∧
    fields d u' = fs ∧ NUL ∉ trimmed tok ∧ NUL ∉ u' ∧ u'.length < u.length ∧
    pre'.length + (trimmed tok).length + v.length = pre.length + u.length + post.length := by
  obtain ⟨lead, z, u', v, hstrtok, hfs, hz, htok, hu', hlen⟩ := strtok_some pre post hu h
  obtain ⟨lead', k, htrim, hlen'⟩ := trim_eq (pre ++ lead) tok v htok
  have hne : tok ≠ [] := (mem_pieces _ (h ▸ List.mem_cons_self : tok ∈ fields d u)).1
  have hpos := List.length_pos_iff.mpr hne
  have hzlen := congrArg List.length hz
  simp only [List.length_append, List.length_cons] at hzlen
  rw [hz] at hstrtok
  refine ⟨_, _, _, _, _, u', hstrtok, htrim, ?_, hfs, fun hm => htok (trimmed_subset hm), hu',
    by omega, ?_⟩
  · intro w hw
    refine ⟨pre ++ lead ++ lead' ++ w ++ List.replicate k NUL ++ z, ?_, ?_⟩
    · rw [← replicate_NUL_cons, ← hz]
      simp only [List.append_assoc]
    · simp only [List.length_append, List.length_replicate]
      omega
  · simp only [List.length_append, List.length_replicate]
    omega

theorem seqLoop_rel (fuel : Nat) (line pre u post : Str) (heap : Mem) (argv ex : PtrArr)
    (hl : line.length = maxLine) (hb : pre.length + u.length + post.length + 1 = maxLine)
    (ha : argv.length = maxArg) (hex : ex.length = maxArg) (hu : NUL ∉ u)
    (hf : u.length < fuel) :
    Prog.Rel RoundOk
      (seqLoop fuel ⟨line :: (pre ++ (u ++ NUL :: post)) :: heap, argv, ex⟩ pre.length)
      (runFields (fields ';' u)) := by
  induction fuel generalizing pre u heap argv ex with
  | zero => omega
  | succ fuel ih =>
      rw [seqLoop, backupBlk, Mem.onBlock_one]
      cases hfu : fields ';' u with
      | nil =>
          rw [strtok_none hu hfu]
          exact .ret ⟨⟨line, _, heap, rfl, hl, by simp; omega⟩, ha, hex⟩
      | cons tok fs =>
          obtain ⟨s₁, start, saved, pre', v, u', hstrtok, htrim, hcut, hfs, hnul, hu', hlt,
            hlen⟩ := strtok_trim pre post hu hfu
          have hparse := parse_eq 1 pre' (trimmed tok) v argv hnul
          have htoks := congrArg List.length (tokensAt_snd pre'.length (trimmed tok))
          rw [List.length_map] at htoks
          rw [hstrtok, runFields_cons, runField]
          simp only [Option.map_some, Prog.lift_some, Prog.ret_bind, Mem.onBlock_one, htrim,
            hparse, htoks, ha]
          by_cases hroom : (tokens (trimmed tok)).length < maxArg
          · rw [if_pos hroom, if_pos hroom]
            simp only [Option.map_some, Prog.lift_some, Prog.ret_bind]
            -- `parse` writes inside the field, so `strtok` finds the rest as it was
            obtain ⟨pre'', hblk, hsaved⟩ := hcut (zap (trimmed tok)) (zap_length _)
            have hargs : Mem.args (line :: (pre' ++ (zap (trimmed tok) ++ NUL :: v)) :: heap)
                (entries 1 (tokensAt pre'.length (trimmed tok)) ++
                  .null :: argv.drop ((tokens (trimmed tok)).length + 1)) =
                some (tokens (trimmed tok)) := args_entries pre' v _ rfl hnul
            refine expandExecute_rel (R := RoundOk)
              (f := fun m ex => seqLoop fuel (Locals.mk m _ ex) saved) (g := runFields fs)
              hargs hex fun x ex' hex' => ?_
            rw [List.cons_append, List.cons_append, hblk, ← hsaved, ← hfs]
            have hblklen := congrArg List.length hblk
            simp only [List.length_append, List.length_cons, zap_length] at hblklen
            refine ih _ u' _ _ _ (by omega) ?_ hex' hu' (by omega)
            have := congrArg List.length (tokensAt_snd pre'.length (trimmed tok))
            simp only [List.length_append, entries, List.length_map, List.length_cons,
              List.length_drop] at this ⊢
            omega
          · rw [if_neg hroom, if_neg hroom]
            exact .ub

theorem seqCase_rel {line t post : Str} {heap : Mem} {argv ex : PtrArr}
    (hl : line.length = maxLine) (hb : t.length + post.length + 1 = maxLine)
    (ha : argv.length = maxArg) (hex : ex.length = maxArg) (ht : NUL ∉ t) :
    Prog.Rel RoundOk (seqCase (line :: (t ++ NUL :: post) :: heap) argv ex)
      (do runFields (fields ';' t); printf prompt) :=
  (seqLoop_rel maxLine line [] t post heap argv ex hl (by simpa using hb) ha hex ht
    (by omega)).bind fun _ _ h => printf_rel _ h

/-! ## Splitting at `|` -/

/-- The pointers of `command_array`: each to a block of its own, beyond the two
line buffers, that holds the command. -/
def Commands (heap : Mem) : List Ptr → List Str → Prop :=
  List.Forall₂ fun p c => ∃ k, p = .at (k + 2) 0 ∧ heap[k]? = some (c ++ [NUL]) ∧ NUL ∉ c

theorem Commands.append {heap : Mem} {ps : List Ptr} {cs : List Str} (h : Commands heap ps cs)
    (x : Mem) : Commands (heap ++ x) ps cs := by
  refine List.Forall₂.imp ?_ h
  rintro p c ⟨k, rfl, hk, hc⟩
  have hlt : k < heap.length := (List.getElem?_eq_some_iff.mp hk).1
  exact ⟨k, rfl, by rw [List.getElem?_append_left hlt, hk], hc⟩

theorem free_commands {heap : Mem} {ps : List Ptr} {cs : List Str} (h : Commands heap ps cs)
    (line backup : Str) (heap₀ : Mem) :
    ∃ heap', ps.foldl free (line :: backup :: heap₀) = line :: backup :: heap' := by
  induction h generalizing heap₀ with
  | nil => exact ⟨heap₀, rfl⟩
  | cons hp _ ih =>
      obtain ⟨k, rfl, -⟩ := hp
      exact ih (heap₀.set k [])

theorem splitLoop_eq (fuel : Nat) (line pre u post : Str) (heap : Mem) (ps : List Ptr)
    (cs : List Str) (hb : pre.length + u.length + post.length + 1 = maxLine) (hu : NUL ∉ u)
    (hf : u.length < fuel) (hps : Commands heap ps cs) (hroom : ps.length ≤ maxArg) :
    (maxArg ≤ ps.length + (fields '|' u).length ∧
      splitLoop fuel (line :: (pre ++ (u ++ NUL :: post)) :: heap) pre.length ps = none) ∨
    (ps.length + (fields '|' u).length < maxArg ∧ ∃ backup' heap' ps',
      splitLoop fuel (line :: (pre ++ (u ++ NUL :: post)) :: heap) pre.length ps =
        some (line :: backup' :: heap', ps') ∧
      backup'.length = maxLine ∧ Commands heap' ps' (cs ++ (fields '|' u).map trimmed)) := by
  induction fuel generalizing pre u heap ps cs with
  | zero => omega
  | succ fuel ih =>
      rw [splitLoop, backupBlk, Mem.onBlock_one]
      cases hfu : fields '|' u with
      -- no field is left, and the NULL is stored
      | nil =>
          rw [strtok_none hu hfu]
          by_cases hlt : ps.length < maxArg
          · refine .inr ⟨hlt, pre ++ (u ++ NUL :: post), heap, ps, ?_, ?_, by simpa using hps⟩
            · simp [hlt]
            · simp only [List.length_append, List.length_cons]
              omega
          · refine .inl ⟨by simpa using hlt, ?_⟩
            simp [hlt]
      | cons tok fs =>
          obtain ⟨s₁, start, saved, pre', v, u', hstrtok, htrim, hcut, hfs, hnul, hu', hlt,
            hlen⟩ := strtok_trim pre post hu hfu
          have hcstr : Mem.cstr (line :: (pre' ++ (trimmed tok ++ NUL :: v)) :: heap) 1
              pre'.length = some (trimmed tok) :=
            Mem.cstr_of_block (r := v) (by simp) hnul
          obtain ⟨pre'', hblk, hsaved⟩ := hcut (trimmed tok) rfl
          rw [hstrtok, List.length_cons]
          simp only [Option.map_some, Option.bind_eq_bind, Option.bind_some, Mem.onBlock_one,
            htrim, hcstr, Mem.strdup, List.cons_append, List.length_cons]
          -- the copy of the trimmed field goes to `command_array`
          by_cases hpush : ps.length < maxArg
          · rw [push_of_lt hpush, Option.bind_some, hblk, ← hsaved, ← hfs]
            have hblklen := congrArg List.length hblk
            simp only [List.length_append, List.length_cons] at hblklen
            have hps' : Commands (heap ++ [trimmed tok ++ [NUL]])
                (ps ++ [.at (heap.length + 2) 0]) (cs ++ [trimmed tok]) :=
              List.rel_append (hps.append _)
                (.cons ⟨heap.length, rfl, by simp, hnul⟩ .nil)
            have hih := ih pre'' u' _ _ _ (by omega) hu' (by omega) hps' (by simp; omega)
            simp only [List.length_append, List.length_singleton, List.append_assoc,
              List.singleton_append, ← List.map_cons] at hih
            rw [Nat.add_assoc ps.length, Nat.add_comm 1] at hih
            exact hih
          · refine .inl ⟨by omega, ?_⟩
            rw [push, if_neg hpush, Option.bind_none]

theorem pipeLoop_rel {χ χ' α β : Type} {R : α → β → Prop} {stage : χ → Prog α}
    {stage' : χ' → Prog β} {done : Prog α} {done' : Prog β} (hdone : Prog.Rel R done done')
    {cs : List χ} {cs' : List χ'}
    (hcs : List.Forall₂ (fun c c' => Prog.Rel R (stage c) (stage' c')) cs cs')
    (i : Nat) (pfd prevPfd : Int × Int) :
    Prog.Rel R (pipeLoop stage done cs i pfd prevPfd)
      (pipeLoop stage' done' cs' i pfd prevPfd) := by
  induction hcs generalizing i pfd prevPfd with
  | nil => exact hdone
  | @cons c c' rest rest' hc hrest ih =>
      have hempty : rest'.isEmpty = rest.isEmpty := by
        cases hrest <;> rfl
      rw [pipeLoop, pipeLoop, hempty]
      refine (Prog.Rel.refl (fun _ => rfl) _).bind ?_
      rintro fds _ rfl
      simp only [fork, waitpid, Prog.fork_bind, Prog.waitpid_bind, Prog.ret_bind]
      refine .fork fun r => ?_
      cases r with
      | failed => exact .call _ fun _ _ => .exit 1
      | child =>
          refine (Prog.Rel.refl (fun _ => rfl) _).bind fun _ _ _ => ?_
          exact (Prog.Rel.refl (fun _ => rfl) _).bind fun _ _ _ => hc
      | parent pid =>
          refine (Prog.Rel.refl (fun _ => rfl) _).bind fun _ _ _ => ?_
          exact .waitpid pid (ih _ _ _)

theorem pipeStage_rel {α : Type} {R : α → Unit → Prop} {line backup : Str} {heap : Mem}
    {argv ex : PtrArr} (ha : argv.length = maxArg) (hex : ex.length = maxArg) {p : Ptr} {c : Str}
    (hp : ∃ k, p = .at (k + 2) 0 ∧ heap[k]? = some (c ++ [NUL]) ∧ NUL ∉ c) :
    Prog.Rel R (pipeStage (line :: backup :: heap) argv ex p) (runStage c) := by
  obtain ⟨k, rfl, hk, hc⟩ := hp
  have hparse := parse_eq (k + 2) [] c [] argv hc
  have htoks := congrArg List.length (tokensAt_snd 0 c)
  rw [List.length_map] at htoks
  simp only [List.nil_append, List.length_nil] at hparse
  have hget : (line :: backup :: heap)[k + 2]? = some (c ++ [NUL]) := by simpa using hk
  rw [pipeStage, runStage, Mem.onBlock, hget]
  simp only [Option.bind_eq_bind, Option.bind_some, hparse, htoks, ha]
  by_cases hroom : (tokens c).length < maxArg
  · rw [if_pos hroom, if_pos hroom]
    have hlt : k + 2 < (line :: backup :: heap).length := (List.getElem?_eq_some_iff.mp hget).1
    have hargs : Mem.args ((line :: backup :: heap).set (k + 2) (zap c ++ [NUL]))
        (entries (k + 2) (tokensAt 0 c) ++ .null :: argv.drop ((tokens c).length + 1)) =
        some (tokens c) :=
      args_entries [] [] _ (by rw [List.getElem?_set_self hlt]; rfl) hc
    simp only [Option.bind_some, Prog.lift_some, Prog.ret_bind]
    refine (expand_rel hargs hex).bind ?_
    rintro ⟨m', ex'⟩ args ⟨⟨x, rfl⟩, -, -⟩
    simp only [Mem.args_append hargs x, Prog.lift_some, Prog.ret_bind]
    exact .execvp _ (.call _ fun _ _ => .exit 1)
  · rw [if_neg hroom, if_neg hroom]
    exact .ub

/-- The pipe loop on the commands that `splitLoop` leaves. -/
theorem commands_rel {α : Type} {R : α → Unit → Prop} {line backup : Str} {heap : Mem}
    {ps : List Ptr} {cs : List Str} (hcs : Commands heap ps cs) {argv ex : PtrArr}
    (ha : argv.length = maxArg) (hex : ex.length = maxArg) {a : α} (hR : R a ()) :
    Prog.Rel R
      (pipeLoop (pipeStage (line :: backup :: heap) argv ex) (do printf prompt; pure a) ps 0
        (-1, -1) (-1, -1))
      (pipeLoop runStage (printf prompt) cs 0 (-1, -1) (-1, -1)) := by
  refine pipeLoop_rel (printf_rel _ hR) (List.Forall₂.imp ?_ hcs) _ _ _
  exact fun _ _ hp => pipeStage_rel ha hex hp

theorem pipeCase_rel {line t post : Str} {heap : Mem} {argv ex : PtrArr}
    (hl : line.length = maxLine) (hb : t.length + post.length + 1 = maxLine)
    (ha : argv.length = maxArg) (hex : ex.length = maxArg) (ht : NUL ∉ t) :
    Prog.Rel RoundOk (pipeCase (line :: (t ++ NUL :: post) :: heap) argv ex)
      (runPipeline ((fields '|' t).map trimmed)) := by
  rcases splitLoop_eq maxLine line [] t post heap [] [] (by simpa using hb) ht (by omega) .nil
    (by simp) with ⟨h1, h2⟩ | ⟨h1, backup', heap', ps, h2, h3, h4⟩
  · simp only [List.nil_append, List.length_nil, Nat.zero_add] at h1 h2
    rw [pipeCase, runPipeline, h2, if_neg (by simpa using h1)]
    exact .ub
  · simp only [List.nil_append, List.length_nil, Nat.zero_add] at h1 h2 h4
    rw [pipeCase, runPipeline, h2, if_pos (by simpa using h1)]
    obtain ⟨heap'', hfree⟩ := free_commands h4 line backup' heap'
    refine commands_rel h4 ha hex ⟨?_, ha, hex⟩
    rw [hfree]
    exact ⟨line, backup', heap'', rfl, hl, h3⟩

/-! ## One round of the read loop -/

/-- The branch of `main` that handles redirections takes the command string. -/
def TakesRedir (s : Str) : Prop :=
  (s.contains '<' || s.contains '>') = true ∧
    ∀ word ∈ (tokens s).head?, ∀ b ∈ builtins, eqIgnoreCase word b = false

theorem chop_append {s : Str} {c : Byte} (hs : NUL ∉ s) (hc : c ≠ NUL) (r : Str) :
    chop (s ++ [c] ++ NUL :: r) = some (s ++ NUL :: NUL :: r) := by
  have hnul : NUL ∉ s ++ [c] := by simp [hs, hc.symm]
  rw [chop, cstrOf_append hnul]
  simp

theorem command_def (chunk : Str) : command chunk =
    if chunk.takeWhile (· ≠ NUL) = [] then none
    else some (chunk.takeWhile (· ≠ NUL)).dropLast := by
  rw [command]
  split <;> simp_all

theorem command_append {s : Str} {c : Byte} (hs : NUL ∉ s) (hc : c ≠ NUL) :
    command (s ++ [c]) = some s := by
  have hall : ∀ x ∈ s ++ [c], decide (x ≠ NUL) = true := by
    intro x hx
    rw [decide_eq_true_iff]
    rintro rfl
    simp [hs, hc.symm] at hx
  rw [command_def, List.takeWhile_eq_self_iff.mpr hall]
  simp

/-- The bytes that `fgets` leaves in `line`, up to the second NUL. -/
theorem command_eq_some {chunk s : Str} (h : command chunk = some s) (r : Str) : ∃ c r',
    chunk ++ NUL :: r = s ++ c :: NUL :: r' ∧ c ≠ NUL ∧ NUL ∉ s ∧ s.length < chunk.length := by
  obtain ⟨u, hu⟩ : ∃ u, u = chunk.takeWhile (· ≠ NUL) := ⟨_, rfl⟩
  have hcut := List.takeWhile_append_dropWhile (p := (· ≠ NUL)) (l := chunk)
  have hnul : NUL ∉ u := by
    rw [hu]
    intro hm
    simpa using List.mem_takeWhile_imp hm
  have hne : u ≠ [] := by
    rintro rfl
    rw [command, ← hu] at h
    cases h
  have hs : s = u.dropLast := by
    obtain ⟨c, t, rfl⟩ := List.exists_cons_of_ne_nil hne
    rw [command, ← hu] at h
    exact (Option.some.inj h).symm
  have hlast := List.dropLast_append_getLast hne
  rw [← hs] at hlast
  rw [← hu, ← hlast] at hcut
  rw [← hlast] at hnul
  simp only [List.mem_append, List.mem_singleton, not_or] at hnul
  have hrest : ∃ r', chunk.dropWhile (· ≠ NUL) ++ NUL :: r = NUL :: r' := by
    cases hd : chunk.dropWhile (· ≠ NUL) with
    | nil => exact ⟨r, rfl⟩
    | cons d t =>
        have := List.head_dropWhile_not (p := (· ≠ NUL)) (l := chunk)
          (hd ▸ List.cons_ne_nil d t)
        simp only [hd, List.head_cons, decide_eq_false_iff_not, not_not] at this
        exact ⟨t ++ NUL :: r, by rw [this, List.cons_append]⟩
  obtain ⟨r', hr'⟩ := hrest
  refine ⟨u.getLast hne, r', ?_, Ne.symm hnul.2, hnul.1, ?_⟩
  · conv_lhs => rw [← hcut]
    rw [List.append_assoc, hr', List.append_assoc, List.singleton_append]
  · have := congrArg List.length hcut
    simp only [List.length_append, List.length_singleton] at this
    omega

/-- What follows the NUL of the command string `s` in `line`, when `fgets` has
stored `chunk` there. -/
def lineRest (line chunk s : Str) : Str :=
  (chunk ++ NUL :: line.drop (chunk.length + 1)).drop (s.length + 1)

theorem readCommand_none {line chunk : Str} (h : command chunk = none) (rest : Mem) :
    readCommand (line :: rest) chunk = none := by
  have hnil : chunk.takeWhile (· ≠ NUL) = [] := by
    rw [command] at h
    split at h
    · assumption
    · cases h
  have hcstr : ∀ r, cstrOf (chunk ++ NUL :: r) = some [] := by
    intro r
    cases chunk with
    | nil => exact cstrOf_append (t := []) (by simp) r
    | cons c t =>
        have hc : c = NUL := by
          by_contra hc
          simp [hc] at hnil
        subst hc
        exact cstrOf_append (t := []) (by simp) (t ++ NUL :: r)
  rw [readCommand, Mem.writeStr]
  by_cases hlen : chunk.length + 1 ≤ line.length
  · simp only [lineBlk, List.getElem?_cons_zero, Option.bind_eq_bind, Option.bind_some, if_pos hlen]
    simp [Mem.onBlock_zero, chop, hcstr]
  · simp only [lineBlk, List.getElem?_cons_zero, Option.bind_eq_bind, Option.bind_some, if_neg hlen,
      Option.bind_none]

theorem readCommand_eq {line backup chunk s : Str} {heap : Mem} (hline : line.length = maxLine)
    (hlen : chunk.length < maxLine) (h : command chunk = some s) :
    readCommand (line :: backup :: heap) chunk =
      some ((s ++ NUL :: lineRest line chunk s) :: backup :: heap, s) := by
  obtain ⟨c, r, hcut, hc, hs, -⟩ := command_eq_some h (line.drop (chunk.length + 1))
  have hwrite : Mem.writeStr (line :: backup :: heap) lineBlk chunk =
      some ((s ++ [c] ++ NUL :: r) :: backup :: heap) := by
    have hfit : chunk.length + 1 ≤ line.length := by omega
    simp only [Mem.writeStr, lineBlk, List.getElem?_cons_zero, Option.bind_eq_bind, Option.bind_some,
      if_pos hfit, List.set_cons_zero, hcut, List.append_assoc, List.singleton_append]
  have hrest : lineRest line chunk s = NUL :: r := by
    rw [lineRest, hcut, ← List.singleton_append, ← List.append_assoc, List.drop_left' (by simp)]
  rw [readCommand, hwrite]
  simp only [Option.bind_eq_bind, Option.bind_some]
  rw [lineBlk, Mem.onBlock_zero, chop_append hs hc, hrest]
  simp [Mem.cstr_zero hs]

/-- The state after `parse`: the string is in `line` with its blanks zapped, and
in `line_backup` as it was. -/
structure Parsed (chunk s : Str) (l : Locals) (m : Mem) (argv : PtrArr) : Prop where
  mem : ∃ line backup heap post, l.mem = line :: backup :: heap ∧
    m = (zap s ++ NUL :: lineRest line chunk s) :: (s ++ NUL :: post) :: heap ∧
    s.length + (lineRest line chunk s).length + 1 = maxLine ∧
    s.length + post.length + 1 = maxLine
  args : m.args argv = some (tokens s)
  argv : argv = entries lineBlk (tokensAt 0 s) ++ .null :: l.argv.drop ((tokens s).length + 1)

/-- The memory and `argv` after `parse` in a round of the read loop. -/
def parsed (l : Locals) (chunk : Str) : Option (Mem × PtrArr) := do
  let (m, t) ← readCommand l.mem chunk
  let m ← m.writeStr backupBlk t
  m.onBlock lineBlk (parse lineBlk · 0 l.argv)

theorem body_def (l : Locals) (chunk : Str) : body l chunk =
    (Prog.lift (parsed l chunk) >>= fun r => dispatch r.1 r.2 l.expandedArgv) := by
  unfold body parsed
  cases readCommand l.mem chunk with
  | none => rfl
  | some read =>
      obtain ⟨m, t⟩ := read
      simp only [Prog.lift_some, Prog.ret_bind, Option.bind_eq_bind, Option.bind_some]
      cases m.writeStr backupBlk t with
      | none => rfl
      | some m => rfl

theorem parsed_eq {l : Locals} (hl : l.Ok) {chunk s : Str} (hlen : chunk.length < maxLine)
    (hs : command chunk = some s) :
    ((tokens s).length < maxArg ∧ ∃ m argv, parsed l chunk = some (m, argv) ∧
      Parsed chunk s l m argv) ∨
    (maxArg ≤ (tokens s).length ∧ parsed l chunk = none) := by
  obtain ⟨mem, argv, ex⟩ := l
  obtain ⟨⟨line, backup, heap, hmem, hline, hbackup⟩, ha, -⟩ := hl
  simp only at hmem ha
  subst hmem
  obtain ⟨c, r, -, -, hnul, hshort⟩ := command_eq_some hs []
  have hbackup' : ∀ line' : Str, Mem.writeStr (line' :: backup :: heap) backupBlk s =
      some (line' :: (s ++ NUL :: backup.drop (s.length + 1)) :: heap) := by
    intro line'
    have hfit : s.length + 1 ≤ backup.length := by omega
    simp only [Mem.writeStr, backupBlk, List.getElem?_cons_succ, List.getElem?_cons_zero,
      Option.bind_eq_bind, Option.bind_some, if_pos hfit, List.set_cons_succ, List.set_cons_zero]
  have hparse := parse_eq 0 [] s (lineRest line chunk s) argv hnul
  have htoks := congrArg List.length (tokensAt_snd 0 s)
  rw [List.length_map] at htoks
  simp only [List.nil_append, List.length_nil, htoks, ha] at hparse
  rw [parsed, readCommand_eq hline hlen hs]
  simp only [Option.bind_eq_bind, Option.bind_some]
  rw [hbackup', Option.bind_some, lineBlk, Mem.onBlock_zero, hparse]
  by_cases hroom : (tokens s).length < maxArg
  · refine .inl ⟨hroom, _, _, by rw [if_pos hroom]; rfl,
      ⟨line, backup, heap, _, rfl, rfl, ?_, ?_⟩, ?_, rfl⟩
    · simp only [lineRest, List.length_drop, List.length_append, List.length_cons]
      omega
    · rw [List.length_drop]
      omega
    · exact args_entries [] _ _ rfl hnul
  · exact .inr ⟨by omega, by rw [if_neg hroom]; rfl⟩

theorem body_eq {l : Locals} (hl : l.Ok) {chunk s : Str} (hlen : chunk.length < maxLine)
    (hs : command chunk = some s) :
    ((tokens s).length < maxArg ∧ ∃ m argv, body l chunk = dispatch m argv l.expandedArgv ∧
      Parsed chunk s l m argv) ∨
    (maxArg ≤ (tokens s).length ∧ body l chunk = .ub) := by
  rw [body_def]
  rcases parsed_eq hl hlen hs with ⟨hroom, m, argv, hparsed, hp⟩ | ⟨hfull, hparsed⟩
  · rw [hparsed]
    exact .inl ⟨hroom, m, argv, rfl, hp⟩
  · rw [hparsed]
    exact .inr ⟨hfull, rfl⟩

theorem arg0_eq {m : Mem} {argv : PtrArr} {ts : List Str} (h : m.args argv = some ts) :
    arg0 m argv = some ts.head? := by
  cases ts with
  | nil =>
      obtain ⟨r, rfl⟩ := Mem.args_eq_nil h
      rfl
  | cons w ws =>
      obtain ⟨b, o, r, rfl, hw, -⟩ := Mem.args_eq_cons h
      have hw' : m.str (.at b o) = some w := hw
      simp [arg0, hw']

section
variable {chunk s : Str} {l : Locals} {m : Mem} {argv : PtrArr}

theorem Parsed.memOk (hp : Parsed chunk s l m argv) : MemOk m := by
  obtain ⟨line, backup, heap, post, -, rfl, hline, hpost⟩ := hp.mem
  refine ⟨_, _, heap, rfl, ?_, ?_⟩
  · simp only [List.length_append, zap_length, List.length_cons]
    omega
  · simp only [List.length_append, List.length_cons]
    omega

theorem Parsed.argv_length (hp : Parsed chunk s l m argv) (hl : l.Ok)
    (hlen : (tokens s).length < maxArg) : argv.length = maxArg := by
  have h0 := congrArg List.length (tokensAt_snd 0 s)
  have h1 := hl.argv
  rw [List.length_map] at h0
  rw [hp.argv]
  simp only [List.length_append, entries, List.length_map, List.length_cons, List.length_drop]
  omega

/-- `parse` stores no entry behind the NULL. -/
theorem Parsed.drop_argv (hp : Parsed chunk s l m argv) :
    argv.drop ((tokens s).length + 1) = l.argv.drop ((tokens s).length + 1) := by
  have hcount := congrArg List.length (tokensAt_snd 0 s)
  rw [List.length_map] at hcount
  rw [hp.argv, ← List.singleton_append, ← List.append_assoc,
    List.drop_left' (by simp [entries, hcount])]

theorem Parsed.backup (hp : Parsed chunk s l m argv) (hs : NUL ∉ s) :
    m.cstr backupBlk 0 = some s := by
  obtain ⟨line, backup, heap, post, -, rfl, -, -⟩ := hp.mem
  exact Mem.cstr_one hs _ _ _

/-- The cascade below the builtins, on a line whose first word is none of them. -/
theorem dispatch_external_rel {R : Locals → Unit → Prop} {ex : PtrArr} {q : Prog Unit}
    (hp : Parsed chunk s l m argv) (hs : NUL ∉ s)
    (hcmd : ∀ word ∈ (tokens s).head?, ∀ b ∈ builtins, eqIgnoreCase word b = false)
    (hq : Prog.Rel R
      (if s.contains '<' || s.contains '>' then redirCase m argv ex
        else if s.contains ';' then seqCase m argv ex
        else if s.contains '|' then pipeCase m argv ex
        else otherCase m argv ex) q) :
    Prog.Rel R (dispatch m argv ex) (do
      let _ ← strcasecmp (tokens s).head? "exit".toList
      let _ ← strcasecmp (tokens s).head? "listall".toList
      let _ ← strcasecmp (tokens s).head? "compile".toList
      q) := by
  have hfalse : ∀ b ∈ builtins, ∀ r,
      Call.Valid (.strcasecmp (tokens s).head? b) r → r = false := by
    intro b hb r hr
    cases hw : (tokens s).head? with
    | none =>
        rw [hw] at hr
        cases hr
    | some w =>
        rw [hw] at hr
        rw [← Option.some.inj hr]
        exact hcmd w hw b hb
  rw [dispatch, arg0_eq hp.args, hp.backup hs]
  simp only [strcasecmp, Prog.lift_some, Prog.ret_bind, Prog.call_bind]
  refine .call _ fun isExit hexit => ?_
  rw [hfalse _ (by simp [builtins]) _ hexit]
  refine .call _ fun isListall hlistall => ?_
  rw [hfalse _ (by simp [builtins]) _ hlistall]
  refine .call _ fun isCompile hcompile => ?_
  rw [hfalse _ (by simp [builtins]) _ hcompile]
  simp only [Bool.false_eq_true, if_false]
  exact hq

/-- The cascade up to the branch for redirections. -/
theorem dispatch_redir_rel {R : Locals → Unit → Prop} {ex : PtrArr} {q : Prog Unit}
    (hp : Parsed chunk s l m argv) (hs : NUL ∉ s) (ht : TakesRedir s)
    (hq : Prog.Rel R (redirCase m argv ex) q) :
    Prog.Rel R (dispatch m argv ex) (do
      let _ ← strcasecmp (tokens s).head? "exit".toList
      let _ ← strcasecmp (tokens s).head? "listall".toList
      let _ ← strcasecmp (tokens s).head? "compile".toList
      q) := by
  refine dispatch_external_rel hp hs ht.2 ?_
  rw [if_pos ht.1]
  exact hq

theorem dispatch_rel (hl : l.Ok) (hp : Parsed chunk s l m argv) (hs : NUL ∉ s)
    (hlen : (tokens s).length < maxArg) (hd : TakesRedir s → ¬ Dangling (tokens s)) :
    Prog.Rel RoundOk (dispatch m argv l.expandedArgv) (runLine s) := by
  have hm := hp.memOk
  have ha := hp.argv_length hl hlen
  have hargs := hp.args
  have hex := hl.expandedArgv
  rw [dispatch, runLine, if_pos hlen, arg0_eq hargs, hp.backup hs]
  obtain ⟨line, backup, heap, post, -, rfl, hline, hpost⟩ := hp.mem
  simp only [strcasecmp, Prog.lift_some, Prog.ret_bind, Prog.call_bind]
  refine .call _ fun isExit hexit => ?_
  cases isExit with
  | true => exact .exit 0
  | false =>
  refine .call _ fun isListall hlistall => ?_
  cases isListall with
  | true => exact listallCase_rel hm ha hex
  | false =>
  refine .call _ fun isCompile hcompile => ?_
  cases isCompile with
  | true =>
      refine compileCase_rel hm ha hex hargs ?_
      rintro hnil
      simp [hnil, Call.Valid] at hcompile
  | false =>
  simp only [Bool.false_eq_true, if_false, runPlain]
  by_cases hredir : (s.contains '<' || s.contains '>') = true
  · rw [if_pos hredir, if_pos hredir]
    -- the first word was none of the builtins, so the line takes this branch
    have hsplit : splitRedir (tokens s) none none [] ≠ none := by
      refine hd ⟨hredir, fun w hw => ?_⟩
      rw [Option.mem_def] at hw
      simp only [Call.Valid, hw, Option.map_some, Option.some.injEq] at hexit hlistall hcompile
      exact forall_builtins.mpr ⟨hexit, hlistall, hcompile⟩
    cases hsr : splitRedir (tokens s) none none [] with
    | none => exact absurd hsr hsplit
    | some r =>
        obtain ⟨pin, pout, argv2, hscan, hin, hout, hargv2⟩ :=
          redirScan_eq hsr .null .null [] hargs rfl rfl (by simp) rfl (by simpa using hlen)
        exact redirCase_rel hm ha hex hscan hin hout hargv2
  rw [if_neg hredir, if_neg hredir]
  have hline' : (zap s ++ NUL :: lineRest line chunk s).length = maxLine := by
    simp only [List.length_append, zap_length, List.length_cons]
    omega
  by_cases hseq : s.contains ';' = true
  · rw [if_pos hseq, if_pos hseq]
    exact seqCase_rel hline' (by omega) ha hex hs
  rw [if_neg hseq, if_neg hseq]
  by_cases hpipe : s.contains '|' = true
  · rw [if_pos hpipe, if_pos hpipe]
    exact pipeCase_rel hline' (by omega) ha hex hs
  rw [if_neg hpipe, if_neg hpipe]
  exact (otherCase_rel hex hargs).mono fun _ _ h => h.roundOk hm ha

end

/-- One round of the read loop makes the calls of its meaning, whatever earlier
lines left behind. -/
theorem body_rel {l : Locals} (hl : l.Ok) {chunk s : Str} (hlen : chunk.length < maxLine)
    (hs : command chunk = some s) (hd : TakesRedir s → ¬ Dangling (tokens s)) :
    Prog.Rel RoundOk (body l chunk) (runLine s) := by
  rcases body_eq hl hlen hs with ⟨hroom, m, argv, hbody, hp⟩ | ⟨hroom, hbody⟩
  · obtain ⟨-, -, -, -, hnul, -⟩ := command_eq_some hs []
    rw [hbody]
    exact dispatch_rel hl hp hnul hroom hd
  · rw [hbody, runLine, if_neg (by omega)]
    exact .ub

end UnixSys.Shell
