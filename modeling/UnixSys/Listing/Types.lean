import UnixSys.Listing.Census

/-!
# Types — `ls1`

`week07Lab2/ls1.c` prints the type of every entry of a directory, as `stat` answers and as
`lstat` does. Its lines by `lstat` are what `ls2` counts. Its lines by `stat` differ from them
only at the links that lead somewhere.
-/

namespace UnixSys.Listing.Ls1

/-! ## The loop -/

/-- The chain of tests on the mode, which prints a type. -/
def fileType (mode : Mode) : Str :=
  if isReg mode then "regular file".toList
  else if isDir mode then "directory".toList
  else if isChr mode then "character special".toList
  else if isBlk mode then "block special".toList
  else if isFifo mode then "FIFO".toList
  else if isLnk mode then "symbolic link".toList
  else if isSock mode then "socket".toList
  else "unknown".toList

/-- `"%s: "`, the type, and what follows it. -/
structure Line where
  dName : Str
  type : Str
  tail : Str

def withStat : Str := " -- with stat\n".toList

def withLstat : Str := " -- with lstat\n\n".toList

def Line.text (l : Line) : Str := l.dName ++ ": ".toList ++ l.type ++ l.tail

example : Line.text ⟨"a".toList, fileType 0o100644, withStat⟩ =
    "a: regular file -- with stat\n".toList := by decide

/-- What has been printed. -/
structure State where
  stdout : List Line
  stderr : Str

def State.start : State := ⟨[], []⟩

def State.print (s : State) (l : Line) : State := { s with stdout := s.stdout ++ [l] }

def State.eprint (s : State) (text : Str) : State := { s with stderr := s.stderr ++ text }

/-- The message after a failed `stat`, and after the first `lstat` when it fails as well. -/
def cantStat (sys : System) (e : Entry) (errno : Errno) : Str :=
  "Can't stat ".toList ++ e.dName ++ ": ".toList ++ sys.strerror errno ++ "\n".toList

/-- Up to the first line: the mode in `sb`, or none at the `continue`. -/
def statOrLstat (sys : System) (s : State) (e : Entry) : State × Option Mode :=
  match e.stat with
  | .ok mode => (s, some mode)
  | .error errno =>
      match e.lstat with
      | .ok mode => (s.eprint (cantStat sys e errno), some mode)
      | .error errno' =>
          ((s.eprint (cantStat sys e errno)).eprint (cantStat sys e errno'), none)

/-- One round of the `while`. After a failed `stat` it is the same `lstat` that is called twice. -/
def body (sys : System) (s : State) (e : Entry) : State :=
  match statOrLstat sys s e with
  | (s, none) => s
  | (s, some mode) =>
      let s := s.print ⟨e.dName, fileType mode, withStat⟩
      match e.lstat with
      | .error _ => s.eprint (notForStat sys e e.lstat)
      | .ok mode => s.print ⟨e.dName, fileType mode, withLstat⟩

def loop (sys : System) : List Entry → State → State
  | [], s => s
  | e :: es, s => loop sys es (body sys s e)

/-! ## The program -/

structure Finished where
  status : Nat
  stdout : List Line
  stderr : Str

/-- `main`; `none` where it is undefined. -/
def main (sys : System) : List Str → Option Finished
  | [] => none
  | [_, dir] =>
      match sys.opendir dir with
      | .error errno => some ⟨1, [], "can't open '".toList ++ dir ++ "': ".toList ++
          sys.strerror errno ++ "\n".toList⟩
      | .ok entries =>
          match sys.chdir dir with
          | .error errno => some ⟨1, [], "can't chdir to '".toList ++ dir ++ "': ".toList ++
              sys.strerror errno ++ "\n".toList⟩
          | .ok _ =>
              let s := loop sys entries .start
              some ⟨0, s.stdout, s.stderr⟩
  | program :: _ => some ⟨1, [], "usage: ".toList ++ program ++ " dir_name\n".toList⟩

/-! ## The lines of an entry -/

/-- The text of a kind. -/
def kindText : Kind → Str
  | .reg => "regular file".toList
  | .dir => "directory".toList
  | .chr => "character special".toList
  | .blk => "block special".toList
  | .fifo => "FIFO".toList
  | .lnk => "symbolic link".toList
  | .sock => "socket".toList
  | .other => "unknown".toList

theorem kindText_injective : Function.Injective kindText := by
  intro k k' h
  cases k <;> cases k'
  all_goals first
    | rfl
    | exact absurd h (by decide)

/-- The chain of tests prints the text of the kind of the mode. -/
theorem fileType_eq (mode : Mode) : fileType mode = kindText (kindOf mode) := by
  unfold fileType kindOf
  iterate 7 rw [apply_ite kindText]
  rfl

/-- The mode of the first line. -/
def statMode (e : Entry) : Option Mode :=
  match e.stat with
  | .ok mode => some mode
  | .error _ => e.lstat.toOption

/-- The lines that a round prints. -/
def lines (e : Entry) : List Line :=
  (statMode e).toList.map (fun mode => ⟨e.dName, fileType mode, withStat⟩) ++
    e.lstat.toOption.toList.map fun mode => ⟨e.dName, fileType mode, withLstat⟩

variable (sys : System) {s : State} {e : Entry} {es : List Entry} {k : Kind}

/-- One round. -/
theorem body_stdout : (body sys s e).stdout = s.stdout ++ lines e := by
  unfold body statOrLstat lines statMode
  cases hstat : e.stat with
  | ok mode =>
      cases hlstat : e.lstat with
      | ok mode' => simp [State.print, Except.toOption]
      | error errno => simp [State.print, State.eprint, Except.toOption]
  | error errno =>
      cases hlstat : e.lstat with
      | ok mode' => simp [State.print, State.eprint, Except.toOption]
      | error errno' => simp [State.eprint, Except.toOption]

/-- All the rounds. -/
theorem loop_stdout : (loop sys es s).stdout = s.stdout ++ es.flatMap lines := by
  induction es generalizing s with
  | nil => rw [loop, List.flatMap_nil, List.append_nil]
  | cons e es ih => rw [loop, ih, body_stdout, List.flatMap_cons, List.append_assoc]

theorem main_eq {program dir : Str} {entries : List Entry}
    (hopen : sys.opendir dir = .ok entries) (hchdir : sys.chdir dir = .ok ()) :
    ∃ stderr, main sys [program, dir] = some ⟨0, entries.flatMap lines, stderr⟩ := by
  have hloop : (loop sys entries .start).stdout = entries.flatMap lines := loop_stdout sys
  refine ⟨(loop sys entries .start).stderr, ?_⟩
  rw [main, hopen, hchdir, ← hloop]

/-! ## The lines of a kind -/

/-- A line of a kind, by one of the calls. -/
def Line.Says (tail : Str) (k : Kind) (l : Line) : Prop := l.tail = tail ∧ l.type = kindText k

instance (tail : Str) (k : Kind) : DecidablePred (Line.Says tail k) := fun _ => instDecidableAnd

theorem says_iff {name tail tail' : Str} {mode : Mode} :
    Line.Says tail' k ⟨name, fileType mode, tail⟩ ↔ tail = tail' ∧ kindOf mode = k := by
  rw [Line.Says, fileType_eq, kindText_injective.eq_iff]

/-- The kind of the first line. -/
def statKind (e : Entry) : Option Kind := (statMode e).map kindOf

theorem kind_eq (e : Entry) : e.kind = e.lstat.toOption.map kindOf := by
  cases hlstat : e.lstat with
  | ok mode => rw [Entry.kind_ok hlstat]; rfl
  | error errno => rw [Entry.kind_error hlstat]; rfl

theorem countP_line (name tail tail' : Str) (mode : Option Mode) :
    (mode.toList.map fun mode => (⟨name, fileType mode, tail⟩ : Line)).countP
        (Line.Says tail' k ·) =
      if tail = tail' ∧ mode.map kindOf = some k then 1 else 0 := by
  cases mode with
  | none => simp
  | some mode => simp [List.countP_singleton, says_iff]

theorem countP_lines (e : Entry) :
    (lines e).countP (Line.Says withStat k ·) = (if statKind e = some k then 1 else 0) ∧
      (lines e).countP (Line.Says withLstat k ·) = if e.kind = some k then 1 else 0 := by
  have hne : withStat ≠ withLstat := by decide
  rw [lines, List.countP_append, List.countP_append, countP_line, countP_line, countP_line,
    countP_line, kind_eq, statKind]
  simp [hne, hne.symm]

/-- The lines of a kind are as many as the entries of that kind. -/
theorem countP_flatMap (es : List Entry) :
    (es.flatMap lines).countP (Line.Says withStat k ·) = census statKind es k ∧
      (es.flatMap lines).countP (Line.Says withLstat k ·) = census Entry.kind es k := by
  induction es with
  | nil => exact ⟨rfl, rfl⟩
  | cons e es ih =>
      obtain ⟨hstat, hlstat⟩ := countP_lines (k := k) e
      rw [List.flatMap_cons, List.countP_append, List.countP_append, hstat, hlstat, ih.1, ih.2,
        census_cons, census_cons]
      exact ⟨rfl, rfl⟩

/-! ## The same entries in `ls2` -/

/-- **`ls2` counts the lines of `ls1`.** On a directory whose entries can be counted in an `int`
both programs succeed, and the counts that `ls2` prints are those of the lines by `lstat` that
`ls1` prints for the same kinds. -/
theorem ls2_counts {program program' dir : Str} {entries : List Entry}
    (hopen : sys.opendir dir = .ok entries) (hchdir : sys.chdir dir = .ok ())
    (hle : entries.length ≤ intMax) :
    ∃ out out' r, main sys [program, dir] = some out ∧ out.status = 0 ∧
      Listing.main sys [program', dir] = some out' ∧ out'.status = 0 ∧ out'.report = some r ∧
      r.categories.map (fun line => line.2.val) =
        printed.map fun k => out.stdout.countP (Line.Says withLstat k ·) := by
  obtain ⟨stderr, hmain⟩ : ∃ stderr, main sys [program, dir] =
      some ⟨0, entries.flatMap lines, stderr⟩ := main_eq sys hopen hchdir
  obtain ⟨s, hloop, hs⟩ := loop_counted sys Counted.start (by simpa using hle)
  have hmain' : Listing.main sys [program', dir] = _ := Listing.main_eq hopen hchdir
  rw [hloop] at hmain'
  refine ⟨_, _, _, hmain, rfl, hmain', rfl, rfl, ?_⟩
  rw [report_counts]
  refine List.map_congr_left fun k _ => ?_
  rw [(countP_flatMap entries).2, hs.each]
  rfl

/-- A directory with a file, a link to it, and a link that leads nowhere. -/
def links : List Entry :=
  [plainEntry "a".toList 0o100644, ⟨"b".toList, .ok 0o100644, .ok 0o120777⟩,
    ⟨"c".toList, .error 2, .ok 0o120777⟩]

theorem links_counts : ∃ out out' r,
    main (listing links) ["ls1".toList, ".".toList] = some out ∧ out.status = 0 ∧
      Listing.main (listing links) ["ls2".toList, ".".toList] = some out' ∧ out'.status = 0 ∧
      out'.report = some r ∧ r.categories.map (fun line => line.2.val) =
        printed.map fun k => out.stdout.countP (Line.Says withLstat k ·) :=
  ls2_counts (listing links) rfl rfl (by decide)

/-! ## Links -/

/-- What the calls answer for a name: `stat` follows a link, and answers as `lstat` does where there
is none. -/
structure Follows (e : Entry) : Prop where
  found : ∀ mode, e.stat = .ok mode → ∃ mode', e.lstat = .ok mode'
  followed : ∀ mode, e.stat = .ok mode → isLnk mode = false
  same : ∀ mode, e.lstat = .ok mode → isLnk mode = false → e.stat = .ok mode

theorem follows_plain {name : Str} {mode : Mode} (h : isLnk mode = false) :
    Follows (plainEntry name mode) where
  found _ _ := ⟨mode, rfl⟩
  followed _ hmode := by
    cases hmode
    exact h
  same _ hmode _ := hmode

theorem follows_link {name : Str} {stat : Except Errno Mode} {mode : Mode}
    (h : isLnk mode = true) (hstat : ∀ mode', stat = .ok mode' → isLnk mode' = false) :
    Follows ⟨name, stat, .ok mode⟩ where
  found _ _ := ⟨mode, rfl⟩
  followed := hstat
  same _ hmode hno := by
    cases hmode
    rw [h] at hno
    cases hno

/-- The kind of the file that a link leads to. -/
def target (e : Entry) : Option Kind :=
  if e.kind = some .lnk then e.stat.toOption.map kindOf else none

/-- The first line of an entry has the kind of the second one; at a link that leads somewhere it has
that of the file there. -/
theorem statKind_eq (h : Follows e) : statKind e = (target e).or e.kind := by
  rw [statKind, statMode, target, kind_eq]
  cases hlstat : e.lstat with
  | error errno =>
      cases hstat : e.stat with
      | ok mode =>
          obtain ⟨mode', hok⟩ := h.found mode hstat
          cases hlstat.symm.trans hok
      | error errno' => rfl
  | ok mode =>
      by_cases hlnk : isLnk mode = true
      · have hkind := (kindOf_eq_iff (k := .lnk) rfl).mpr hlnk
        cases hstat : e.stat with
        | ok mode' => simp [Except.toOption, hkind]
        | error errno => simp [Except.toOption, hkind]
      · have hkind : kindOf mode ≠ .lnk := fun hk => hlnk ((kindOf_eq_iff rfl).mp hk)
        rw [h.same mode hlstat (Bool.not_eq_true _ ▸ hlnk)]
        simp [Except.toOption, hkind]

/-- One entry: a link that leads somewhere is a link by `lstat`, and by `stat` what it leads to. -/
theorem statKind_accounted (h : Follows e) :
    (if statKind e = some k then 1 else 0) +
        (if k = .lnk then [e].countP (fun e => (target e).isSome) else 0) =
      (if e.kind = some k then 1 else 0) + if target e = some k then 1 else 0 := by
  rw [statKind_eq h, List.countP_singleton]
  cases htarget : target e with
  | none =>
      rw [Option.none_or]
      simp
  | some k' =>
      have hlnk : e.kind = some .lnk := by
        by_contra hne
        rw [target, if_neg hne] at htarget
        cases htarget
      rw [hlnk, Option.some_or, Nat.add_comm]
      simp [eq_comm]

theorem census_statKind (h : ∀ e ∈ es, Follows e) :
    census statKind es k + (if k = .lnk then es.countP (fun e => (target e).isSome) else 0) =
      census Entry.kind es k + census target es k := by
  induction es with
  | nil => simp
  | cons e es ih =>
      obtain ⟨he, hes⟩ := List.forall_mem_cons.mp h
      have hone := statKind_accounted (k := k) he
      have hrest := ih hes
      rw [← List.singleton_append, List.countP_append, List.singleton_append, census_cons,
        census_cons, census_cons]
      by_cases hk : k = .lnk
      · rw [if_pos hk] at hone hrest ⊢
        omega
      · rw [if_neg hk] at hone hrest ⊢
        omega

/-- A link leads to no link. -/
theorem target_ne_lnk {e : Entry} (h : Follows e) : target e ≠ some .lnk := by
  intro htarget
  rw [target] at htarget
  split_ifs at htarget
  cases hstat : e.stat with
  | error errno =>
      rw [hstat] at htarget
      cases htarget
  | ok mode =>
      rw [hstat] at htarget
      have hkind : kindOf mode = .lnk := Option.some.inj htarget
      have hlnk : isLnk mode = true := (kindOf_eq_iff rfl).mp hkind
      rw [h.followed mode hstat] at hlnk
      cases hlnk

/-- By `stat` an entry is a link when it is one that leads nowhere. -/
theorem statKind_eq_lnk_iff {e : Entry} (h : Follows e) :
    statKind e = some .lnk ↔ e.kind = some .lnk ∧ target e = none := by
  rw [statKind_eq h]
  cases htarget : target e with
  | none => simp
  | some k =>
      have hk : k ≠ .lnk := fun heq => target_ne_lnk h (heq ▸ htarget)
      simp [hk]

/-- **The lines by `stat` are accounted for.** Of each kind there are as many as by `lstat`, and one
for each link to a file of that kind; but the links that lead somewhere are not among the links: these
are, by `stat`, the links that lead nowhere. -/
theorem stat_lines {program dir : Str} {entries : List Entry}
    (hopen : sys.opendir dir = .ok entries) (hchdir : sys.chdir dir = .ok ())
    (hfollows : ∀ e ∈ entries, Follows e) :
    ∃ out, main sys [program, dir] = some out ∧ (∀ k,
      out.stdout.countP (Line.Says withStat k ·) +
          (if k = .lnk then entries.countP (fun e => (target e).isSome) else 0) =
        out.stdout.countP (Line.Says withLstat k ·) + census target entries k) ∧
      census target entries .lnk = 0 ∧
      out.stdout.countP (Line.Says withStat .lnk ·) =
        entries.countP (fun e => e.kind = some .lnk ∧ target e = none) := by
  obtain ⟨stderr, hmain⟩ : ∃ stderr, main sys [program, dir] =
      some ⟨0, entries.flatMap lines, stderr⟩ := main_eq sys hopen hchdir
  refine ⟨_, hmain, fun k => ?_, ?_, ?_⟩
  · obtain ⟨hstat, hlstat⟩ := countP_flatMap (k := k) entries
    dsimp only
    rw [hstat, hlstat]
    exact census_statKind hfollows
  · rw [census, List.countP_eq_zero]
    intro e he htarget
    exact target_ne_lnk (hfollows e he) (by simpa using htarget)
  · dsimp only
    rw [(countP_flatMap (k := .lnk) entries).1, census]
    refine List.countP_congr fun e he => ?_
    rw [decide_eq_true_iff, decide_eq_true_iff]
    exact statKind_eq_lnk_iff (hfollows e he)

theorem links_stat_lines : ∃ out, main (listing links) ["ls1".toList, ".".toList] = some out ∧
    (∀ k, out.stdout.countP (Line.Says withStat k ·) +
        (if k = .lnk then links.countP (fun e => (target e).isSome) else 0) =
      out.stdout.countP (Line.Says withLstat k ·) + census target links k) ∧
    census target links .lnk = 0 ∧
    out.stdout.countP (Line.Says withStat .lnk ·) =
      links.countP (fun e => e.kind = some .lnk ∧ target e = none) := by
  refine stat_lines (listing links) rfl rfl ?_
  simp only [links, List.forall_mem_cons]
  refine ⟨follows_plain (by decide), follows_link (by decide) ?_, follows_link (by decide) ?_,
    fun e he => absurd he List.not_mem_nil⟩
  · intro mode hmode
    cases hmode
    decide
  · intro mode hmode
    cases hmode

end UnixSys.Listing.Ls1
