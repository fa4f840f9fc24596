import UnixSys.Shell.Refine

/-!
# Scan — operators, file names and arguments

Which tokens of a line the scan for redirections takes for operators, read off
the positions of the tokens: a `<` or `>` is an operator unless it comes right
after one. `redirScan_separates` says that the scan of the code sorts the tokens
that way.
-/

namespace UnixSys.Shell

/-- The `i`-th token is an operator. -/
def operatorAt (ts : List Str) : Nat → Bool
  | 0 => ts[0]?.any isOperator
  | i + 1 => ts[i + 1]?.any isOperator && !operatorAt ts i

/-- The `i`-th token comes right after an operator. -/
def fileAt (ts : List Str) : Nat → Bool
  | 0 => false
  | i + 1 => operatorAt ts i

/-- The tokens that are neither operators nor file names. -/
def argumentsOf (ts : List Str) : List Str :=
  (List.range ts.length).filterMap fun i =>
    if operatorAt ts i || fileAt ts i then none else ts[i]?

/-- The tokens after the operators `op`. -/
def filesOf (op : Str) (ts : List Str) : List Str :=
  (List.range ts.length).filterMap fun i =>
    if operatorAt ts i && ts[i]? == some op then ts[i + 1]? else none

/-! ## From left to right -/

section
variable {w next : Str} {ts : List Str}

theorem operatorAt_zero : operatorAt (w :: ts) 0 = isOperator w := rfl

theorem operatorAt_keep (hw : isOperator w = false) (i : Nat) :
    operatorAt (w :: ts) (i + 1) = operatorAt ts i := by
  induction i with
  | zero => simp [operatorAt, hw]
  | succ i ih => rw [operatorAt, ih]; rfl

theorem operatorAt_skip (hw : isOperator w = true) (i : Nat) :
    operatorAt (w :: next :: ts) (i + 2) = operatorAt ts i := by
  induction i with
  | zero => simp [operatorAt, hw]
  | succ i ih => rw [operatorAt, ih]; rfl

theorem argumentsOf_keep (hw : isOperator w = false) :
    argumentsOf (w :: ts) = w :: argumentsOf ts := by
  have hfile : ∀ i, fileAt (w :: ts) (i + 1) = fileAt ts i := by
    intro i
    cases i with
    | zero => simp [fileAt, operatorAt_zero, hw]
    | succ i => rw [fileAt, operatorAt_keep hw]; rfl
  rw [argumentsOf, List.length_cons, List.range_succ_eq_map, List.filterMap_cons_some (b := w),
    List.filterMap_map]
  · refine congrArg (w :: ·) (List.filterMap_congr fun i _ => ?_)
    simp only [Function.comp, operatorAt_keep hw, hfile, List.getElem?_cons_succ]
  · simp [operatorAt_zero, hw, fileAt]

theorem argumentsOf_skip (hw : isOperator w = true) :
    argumentsOf (w :: next :: ts) = argumentsOf ts := by
  have hfile : ∀ i, fileAt (w :: next :: ts) (i + 2) = fileAt ts i := by
    intro i
    cases i with
    | zero => simp [fileAt, operatorAt, hw]
    | succ i => rw [fileAt, operatorAt_skip hw]; rfl
  rw [argumentsOf, List.length_cons, List.length_cons, List.range_succ_eq_map,
    List.range_succ_eq_map, List.map_cons, List.map_map,
    List.filterMap_cons_none, List.filterMap_cons_none, List.filterMap_map]
  · refine List.filterMap_congr fun i _ => ?_
    simp only [Function.comp, operatorAt_skip hw, hfile, List.getElem?_cons_succ]
  · simp [fileAt, operatorAt_zero, hw]
  · simp [operatorAt_zero, hw]

theorem filesOf_keep (op : Str) (hw : isOperator w = false) :
    filesOf op (w :: ts) = filesOf op ts := by
  rw [filesOf, List.length_cons, List.range_succ_eq_map, List.filterMap_cons_none,
    List.filterMap_map]
  · refine List.filterMap_congr fun i _ => ?_
    simp only [Function.comp, operatorAt_keep hw, List.getElem?_cons_succ]
  · simp [operatorAt_zero, hw]

theorem filesOf_skip (op : Str) (hw : isOperator w = true) :
    filesOf op (w :: next :: ts) = (if w = op then [next] else []) ++ filesOf op ts := by
  have hrest : (List.range ts.length).filterMap
      ((fun i => if operatorAt (w :: next :: ts) i && (w :: next :: ts)[i]? == some op then
        (w :: next :: ts)[i + 1]? else none) ∘ (Nat.succ ∘ Nat.succ)) = filesOf op ts := by
    refine List.filterMap_congr fun i _ => ?_
    simp only [Function.comp, operatorAt_skip hw, List.getElem?_cons_succ]
  rw [filesOf, List.length_cons, List.length_cons, List.range_succ_eq_map,
    List.range_succ_eq_map, List.map_cons, List.map_map, List.filterMap_cons,
    List.filterMap_cons_none (by simp [operatorAt, hw]), List.filterMap_map, hrest]
  by_cases hop : w = op
  · subst hop
    simp [operatorAt_zero, hw]
  · simp [operatorAt_zero, hop]

end

theorem lt_of_operatorAt {ts : List Str} {i : Nat} (h : operatorAt ts i = true) :
    i < ts.length := by
  have hany : ts[i]?.any isOperator = true := by
    cases i with
    | zero => exact h
    | succ i =>
        rw [operatorAt, Bool.and_eq_true] at h
        exact h.1
  by_contra hge
  rw [List.getElem?_eq_none (Nat.not_lt.mp hge)] at hany
  cases hany

/-! ## The scan -/

/-- A scan whose operators all have a file name after them. -/
theorem splitRedir_eq {ts : List Str} (h : ∀ i, operatorAt ts i = true → i + 1 < ts.length)
    (input output : Option Str) (ws : List Str) :
    splitRedir ts input output ws =
      some ((filesOf "<".toList ts).getLast?.or input, (filesOf ">".toList ts).getLast?.or output,
        ws ++ argumentsOf ts) := by
  induction ts, input, output, ws using splitRedir.induct with
  | case1 input output ws => simp [splitRedir, filesOf, argumentsOf]
  | case2 w input output ws hop =>
      have := h 0 hop
      simp at this
  | case3 w input output ws hop =>
      have hkeep : isOperator w = false := by simpa using hop
      rw [splitRedir, if_neg hop, filesOf_keep _ hkeep, filesOf_keep _ hkeep,
        argumentsOf_keep hkeep]
      simp [filesOf, argumentsOf]
  -- a file counts unless a later operator of the same kind has another
  | case4 next rest input output ws ih =>
      have hskip : isOperator "<".toList = true := by decide
      have hne : "<".toList ≠ ">".toList := by decide
      rw [splitRedir, if_pos rfl, ih fun i hi => ?_, filesOf_skip _ hskip, filesOf_skip _ hskip,
        argumentsOf_skip hskip, if_pos rfl, if_neg hne, List.nil_append, List.getLast?_append,
        Option.or_assoc]
      · rfl
      · have := h (i + 2) ((operatorAt_skip hskip i).trans hi)
        simp only [List.length_cons] at this
        omega
  | case5 next rest input output ws hne ih =>
      have hskip : isOperator ">".toList = true := by decide
      have hne' : ">".toList ≠ "<".toList := by decide
      rw [splitRedir, if_neg hne, if_pos rfl, ih fun i hi => ?_, filesOf_skip _ hskip,
        filesOf_skip _ hskip, argumentsOf_skip hskip, if_pos rfl, if_neg hne', List.nil_append,
        List.getLast?_append, Option.or_assoc]
      · rfl
      · have := h (i + 2) ((operatorAt_skip hskip i).trans hi)
        simp only [List.length_cons] at this
        omega
  | case6 w next rest input output ws hlt hgt ih =>
      have hkeep : isOperator w = false := by
        rw [isOperator, decide_eq_false hlt, decide_eq_false hgt]
        rfl
      rw [splitRedir, if_neg hlt, if_neg hgt, ih fun i hi => ?_, filesOf_keep _ hkeep,
        filesOf_keep _ hkeep, argumentsOf_keep hkeep, List.append_assoc, List.singleton_append]
      have := h (i + 1) ((operatorAt_keep hkeep i).trans hi)
      simpa using this

/-- With a token after every operator, the scan ends with the arguments in `argv2`
and with the last file name of each kind. -/
theorem redirScan_separates {m : Mem} {argv : PtrArr} {ts : List Str}
    (hargv : m.args argv = some ts) (hlen : ts.length < maxArg)
    (h : ∀ i, operatorAt ts i = true → i + 1 < ts.length) :
    ∃ inputFile outputFile argv2,
      redirScan m argv .null .null [] = some (inputFile, outputFile, argv2) ∧
      m.args argv2 = some (argumentsOf ts) ∧
      PointsTo m inputFile (filesOf "<".toList ts).getLast? ∧
      PointsTo m outputFile (filesOf ">".toList ts).getLast? := by
  have hsplit := splitRedir_eq h none none []
  rw [Option.or_none, Option.or_none, List.nil_append] at hsplit
  obtain ⟨inputFile, outputFile, argv2, hscan, hin, hout, hargs⟩ :=
    redirScan_eq hsplit .null .null [] hargv rfl rfl (by simp) rfl (by simpa using hlen)
  exact ⟨inputFile, outputFile, argv2, hscan, hargs, hin, hout⟩

/-- In `cat < <` the second `<` is the file name. -/
theorem cat_scan :
    ∃ inputFile outputFile argv2,
      redirScan ["cat".toList ++ [NUL], "<".toList ++ [NUL]]
        [.at 0 0, .at 1 0, .at 1 0, .null] .null .null [] =
          some (inputFile, outputFile, argv2) ∧
      Mem.args ["cat".toList ++ [NUL], "<".toList ++ [NUL]] argv2 =
        some (argumentsOf ["cat".toList, "<".toList, "<".toList]) ∧
      PointsTo ["cat".toList ++ [NUL], "<".toList ++ [NUL]] inputFile
        (filesOf "<".toList ["cat".toList, "<".toList, "<".toList]).getLast? ∧
      PointsTo ["cat".toList ++ [NUL], "<".toList ++ [NUL]] outputFile
        (filesOf ">".toList ["cat".toList, "<".toList, "<".toList]).getLast? := by
  refine redirScan_separates (by decide) (by decide) fun i hi => ?_
  have hlt : i < 3 := lt_of_operatorAt hi
  -- the last token is a file name
  obtain rfl | hlt : i = 2 ∨ i < 2 := by omega
  · exact absurd hi (by decide)
  · exact Nat.succ_lt_succ hlt

end UnixSys.Shell
