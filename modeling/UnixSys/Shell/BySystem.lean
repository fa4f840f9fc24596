import UnixSys.Shell.ReadLoop

/-!
# BySystem — shells that call `system`

`week06Lab2/simple-shell0.c` and `week06Lab2/myshell.c` give each line to `system`. Their buffer has
256 bytes. A line that is longer is cut into several commands, and each of them but the last one
has lost a byte; so has a last line without its newline.
-/

namespace UnixSys.Shell.BySystem

/-! ## Source -/

/-- `sizeof(line)`. -/
def lineSize : Nat := 256

/-- What the loop does with a line: `system` of a command, or `break`. -/
abbrev Choice := Str → Option Str

/-- `simple-shell0.c`. -/
def simpleShell0 : Choice := some

/-- The cascade of `myshell.c`. -/
def myshell : Choice := fun line =>
  if eqIgnoreCase line "exit".toList then none
  else if line = "listall".toList then some "ls -la".toList
  else if line = "showme".toList then some "w | grep \"txn\"".toList
  else some line

/-- What can be seen of the program. -/
inductive Event where
  | prompt
  | system (command : Str)
  deriving DecidableEq

/-- The `while`; `none` where it is undefined, at a line that starts with a NUL byte. The bytes that
`fgets` stores end in a NUL byte, and what is behind it in the buffer is not read. -/
def loop (choice : Choice) : Nat → Str → Option (List Event)
  | 0, _ => some []
  | fuel + 1, stream =>
      if stream = [] then some []
      else do
        let (chunk, stream) := fgets lineSize stream
        let buffer ← chop (chunk ++ [NUL])
        let line ← cstrOf buffer
        match choice line with
        | none => some []
        | some command => do
            let events ← loop choice fuel stream
            some (.system command :: .prompt :: events)

/-- `main`. A call of `fgets` takes one byte at least, so that the length of the stream is fuel
enough. -/
def main (choice : Choice) (stream : Str) : Option (List Event) := do
  let events ← loop choice stream.length stream
  some (.prompt :: events)

/-! ## Lines that are typed -/

/-- The commands that are read from a line. -/
def cut (l : Str) : List Str :=
  if l.length + 1 < lineSize then [l]
  else l.take (lineSize - 2) :: cut (l.drop (lineSize - 1))
termination_by l.length
decreasing_by
  simp only [lineSize, List.length_drop] at *
  omega

/-- The commands that are read from what comes after the last newline. -/
def cutEnd (t : Str) : List Str :=
  if t = [] then []
  else if t.length < lineSize then [t.dropLast]
  else t.take (lineSize - 2) :: cutEnd (t.drop (lineSize - 1))
termination_by t.length
decreasing_by
  simp only [lineSize, List.length_drop] at *
  omega

/-- What the program does with these commands. -/
def events (choice : Choice) : List Str → List Event
  | [] => []
  | l :: ls =>
      match choice l with
      | none => []
      | some command => .system command :: .prompt :: events choice ls

/-- A line without its newline. -/
structure Typed (l : Str) : Prop where
  newline : '\n' ∉ l
  nul : NUL ∉ l

variable {choice : Choice} {l t : Str} {ls : List Str}

theorem cut_of_lt (h : l.length + 1 < lineSize) : cut l = [l] := by
  rw [cut, if_pos h]

theorem cut_of_not_lt (h : ¬ l.length + 1 < lineSize) :
    cut l = l.take (lineSize - 2) :: cut (l.drop (lineSize - 1)) := by
  rw [cut, if_neg h]

theorem cutEnd_of_lt (ht : t ≠ []) (h : t.length < lineSize) : cutEnd t = [t.dropLast] := by
  rw [cutEnd, if_neg ht, if_pos h]

theorem cutEnd_of_not_lt (ht : t ≠ []) (h : ¬ t.length < lineSize) :
    cutEnd t = t.take (lineSize - 2) :: cutEnd (t.drop (lineSize - 1)) := by
  rw [cutEnd, if_neg ht, if_neg h]

theorem Typed.take (h : Typed l) (n : Nat) : Typed (l.take n) :=
  ⟨fun hmem => h.newline (List.mem_of_mem_take hmem), fun hmem => h.nul (List.mem_of_mem_take hmem)⟩

theorem Typed.drop (h : Typed l) (n : Nat) : Typed (l.drop n) :=
  ⟨fun hmem => h.newline (List.mem_of_mem_drop hmem), fun hmem => h.nul (List.mem_of_mem_drop hmem)⟩

theorem loop_succ (fuel : Nat) {stream rest line : Str} {c : Byte} (hs : stream ≠ [])
    (hread : fgets lineSize stream = (line ++ [c], rest)) (hline : NUL ∉ line) (hc : c ≠ NUL) :
    loop choice (fuel + 1) stream = (choice line).elim (some []) fun command =>
      (loop choice fuel rest).bind fun events => some (.system command :: .prompt :: events) := by
  have hchop : chop (line ++ [c] ++ [NUL]) = some (line ++ [NUL, NUL]) := chop_append hline hc []
  have hcstr : cstrOf (line ++ [NUL, NUL]) = some line := cstrOf_append hline [NUL]
  rw [loop, if_neg hs, hread]
  simp only [hchop, hcstr, Option.bind_eq_bind, Option.bind_some]
  cases choice line <;> rfl

theorem takeWhile_newline (hl : '\n' ∉ l) (r : Str) :
    (l ++ r).takeWhile (· ≠ '\n') = l ++ r.takeWhile (· ≠ '\n') := by
  refine List.takeWhile_append_of_pos fun c hc => ?_
  rw [decide_eq_true_iff]
  rintro rfl
  exact hl hc

/-- A line that does not fit: the buffer takes 255 bytes of it. -/
theorem fgets_full (hl : '\n' ∉ l) (hlen : lineSize ≤ l.length + 1) (r : Str) :
    fgets lineSize (l ++ r) = (l.take (lineSize - 1), l.drop (lineSize - 1) ++ r) := by
  have hmin : min ((l ++ r.takeWhile (· ≠ '\n')).length + 1) (lineSize - 1) = lineSize - 1 := by
    simp only [lineSize, List.length_append] at hlen ⊢
    omega
  have hle : lineSize - 1 ≤ l.length := by
    simp only [lineSize] at hlen ⊢
    omega
  rw [fgets, takeWhile_newline hl, hmin, List.take_append_of_le_length hle,
    List.drop_append_of_le_length hle]

/-- What comes after the last newline, when it fits. -/
theorem fgets_unended (ht : '\n' ∉ t) (hlen : t.length < lineSize) :
    fgets lineSize t = (t, []) := by
  have hmin : t.length ≤ min (t.length + 1) (lineSize - 1) := by
    simp only [lineSize] at hlen ⊢
    omega
  have hall := takeWhile_newline ht []
  rw [List.append_nil, List.takeWhile_nil, List.append_nil] at hall
  rw [fgets, hall, List.take_of_length_le hmin, List.drop_of_length_le hmin]

/-- A full buffer: the last of its 255 bytes is overwritten. -/
theorem loop_full (hl : Typed l) (hlen : lineSize ≤ l.length + 1) (r : Str) {fuel : Nat}
    (hfuel : (l ++ r).length ≤ fuel) {ls : List Str}
    (hrest : ∀ fuel, (l.drop (lineSize - 1) ++ r).length ≤ fuel →
      loop choice fuel (l.drop (lineSize - 1) ++ r) = some (events choice ls)) :
    loop choice fuel (l ++ r) = some (events choice (l.take (lineSize - 2) :: ls)) := by
  have hpos : lineSize - 2 < l.length := by
    simp only [lineSize] at hlen ⊢
    omega
  obtain ⟨fuel, rfl⟩ : ∃ n, fuel = n + 1 := ⟨fuel - 1, by simp at hfuel; omega⟩
  have hlast : l.take (lineSize - 1) = l.take (lineSize - 2) ++ [l[lineSize - 2]] :=
    (List.take_append_getElem hpos).symm
  have hread : fgets lineSize (l ++ r) =
      (l.take (lineSize - 2) ++ [l[lineSize - 2]], l.drop (lineSize - 1) ++ r) := by
    rw [fgets_full hl.newline hlen, hlast]
  have hne : l ++ r ≠ [] := fun h => by
    rw [(List.append_eq_nil_iff.mp h).1] at hpos
    exact absurd hpos (Nat.not_lt_zero _)
  have hless : (l.drop (lineSize - 1) ++ r).length ≤ fuel := by
    simp only [List.length_append, List.length_drop, lineSize] at hfuel hlen ⊢
    omega
  rw [loop_succ fuel hne hread (hl.take _).nul (fun h => hl.nul (h ▸ List.getElem_mem hpos)),
    hrest fuel hless, events]
  cases choice (l.take (lineSize - 2)) <;> rfl

/-- One line, in as many rounds as it takes. -/
theorem loop_line (hl : Typed l) {rest : Str} {ls : List Str}
    (hrest : ∀ fuel, rest.length ≤ fuel → loop choice fuel rest = some (events choice ls))
    {fuel : Nat} (hfuel : (l ++ '\n' :: rest).length ≤ fuel) :
    loop choice fuel (l ++ '\n' :: rest) = some (events choice (cut l ++ ls)) := by
  induction l using cut.induct generalizing fuel with
  | case1 l hlt =>
      obtain ⟨fuel, rfl⟩ : ∃ n, fuel = n + 1 := ⟨fuel - 1, by simp at hfuel; omega⟩
      rw [loop_succ fuel (by simp) (fgets_ended hl.newline hlt rest) hl.nul (by decide),
        cut_of_lt hlt, List.singleton_append, events, hrest fuel (by simp at hfuel; omega)]
      cases choice l <;> rfl
  | case2 l hge ih =>
      rw [cut_of_not_lt hge, List.cons_append]
      exact loop_full hl (Nat.not_lt.mp hge) _ hfuel fun fuel hless => ih (hl.drop _) hless

/-- The last rounds. -/
theorem loop_end (ht : Typed t) {fuel : Nat} (hfuel : t.length ≤ fuel) :
    loop choice fuel t = some (events choice (cutEnd t)) := by
  induction t using cutEnd.induct generalizing fuel with
  | case1 => cases fuel <;> rw [cutEnd, if_pos rfl] <;> rfl
  | case2 t hne hlt =>
      have hpos := List.length_pos_iff.mpr hne
      obtain ⟨fuel, rfl⟩ : ∃ n, fuel = n + 1 := ⟨fuel - 1, by omega⟩
      have hlast := List.dropLast_concat_getLast hne
      have hread : fgets lineSize t = (t.dropLast ++ [t.getLast hne], []) := by
        rw [hlast, fgets_unended ht.newline hlt]
      have hnil : loop choice fuel [] = some [] := by cases fuel <;> rfl
      rw [loop_succ fuel hne hread (fun h => ht.nul (List.dropLast_subset t h))
        (fun h => ht.nul (h ▸ List.getLast_mem hne)), cutEnd_of_lt hne hlt, hnil, events]
      cases choice t.dropLast <;> rfl
  | case3 t hne hge ih =>
      have hlen : lineSize ≤ t.length + 1 := Nat.le_succ_of_le (Nat.not_lt.mp hge)
      have hfull : loop choice fuel (t ++ []) =
          some (events choice (t.take (lineSize - 2) :: cutEnd (t.drop (lineSize - 1)))) := by
        refine loop_full ht hlen [] (by rwa [List.append_nil]) fun fuel hless => ?_
        rw [List.append_nil] at hless ⊢
        exact ih (ht.drop _) hless
      rwa [List.append_nil, ← cutEnd_of_not_lt hne hge] at hfull

/-- **The whole input**: the program acts on what the lines are cut into. -/
theorem main_typed (hls : ∀ l ∈ ls, Typed l) (ht : Typed t) :
    main choice (typed ls ++ t) = some (.prompt :: events choice (ls.flatMap cut ++ cutEnd t)) := by
  have hloop : ∀ fuel, (typed ls ++ t).length ≤ fuel →
      loop choice fuel (typed ls ++ t) = some (events choice (ls.flatMap cut ++ cutEnd t)) := by
    induction ls with
    | nil => exact fun fuel hfuel => loop_end ht hfuel
    | cons l ls ih =>
        intro fuel hfuel
        have hcut : typed (l :: ls) ++ t = l ++ '\n' :: (typed ls ++ t) := by simp [typed]
        rw [hcut] at hfuel ⊢
        rw [List.flatMap_cons, List.append_assoc]
        exact loop_line (hls l List.mem_cons_self)
          (ih fun d hd => hls d (List.mem_cons_of_mem l hd)) hfuel
  rw [main, hloop _ (Nat.le_refl _)]
  rfl

/-! ## Lines that fit -/

theorem one_le_length_cut (l : Str) : 1 ≤ (cut l).length := by
  rw [cut]
  split
  · exact Nat.le_refl _
  · exact Nat.succ_le_succ (Nat.zero_le _)

theorem length_cut_eq_one_iff : (cut l).length = 1 ↔ l.length + 1 < lineSize := by
  rw [cut]
  split
  · next hlt => exact iff_of_true rfl hlt
  · next hge =>
      refine iff_of_false (fun h => ?_) hge
      have hrest := one_le_length_cut (l.drop (lineSize - 1))
      rw [List.length_cons] at h
      omega

theorem length_le_cut (ls : List Str) : ls.length ≤ (ls.flatMap cut).length := by
  induction ls with
  | nil => exact Nat.le_refl _
  | cons l ls ih =>
      have hone := one_le_length_cut l
      rw [List.flatMap_cons, List.length_append, List.length_cons]
      omega

/-- Lines are not cut when they fit, and otherwise there are more commands than lines. -/
theorem flatMap_cut_eq_iff : ls.flatMap cut = ls ↔ ∀ l ∈ ls, l.length + 1 < lineSize := by
  constructor
  · intro h
    induction ls with
    | nil => exact fun l hl => absurd hl List.not_mem_nil
    | cons l ls ih =>
        have hlen := congrArg List.length h
        have hone := one_le_length_cut l
        have hrest := length_le_cut ls
        rw [List.flatMap_cons, List.length_append, List.length_cons] at hlen
        have hfits : l.length + 1 < lineSize := length_cut_eq_one_iff.mp (by omega)
        rw [List.flatMap_cons, cut_of_lt hfits] at h
        exact List.forall_mem_cons.mpr ⟨hfits, ih (List.cons.inj h).2⟩
  · intro h
    induction ls with
    | nil => rfl
    | cons l ls ih =>
        obtain ⟨hl, hls⟩ := List.forall_mem_cons.mp h
        rw [List.flatMap_cons, cut_of_lt hl, ih hls]
        rfl

/-- Without a newline the last byte is lost. -/
theorem cutEnd_ne (ht : t ≠ []) : cutEnd t ≠ [t] := by
  have hpos := List.length_pos_iff.mpr ht
  intro h
  by_cases hlt : t.length < lineSize
  · rw [cutEnd_of_lt ht hlt] at h
    have hlen := congrArg List.length (List.cons.inj h).1
    rw [List.length_dropLast] at hlen
    omega
  · rw [cutEnd_of_not_lt ht hlt] at h
    have hlen := congrArg List.length (List.cons.inj h).1
    simp only [List.length_take, lineSize] at hlen hlt
    omega

theorem one_le_length_cutEnd (ht : t ≠ []) : 1 ≤ (cutEnd t).length := by
  by_cases hlt : t.length < lineSize
  · rw [cutEnd_of_lt ht hlt]
    exact Nat.le_refl _
  · rw [cutEnd_of_not_lt ht hlt]
    exact Nat.succ_le_succ (Nat.zero_le _)

/-- The lines of an input: what comes after the last newline is one when it is not empty. -/
def linesOf (ls : List Str) (t : Str) : List Str := if t = [] then ls else ls ++ [t]

theorem cuts_eq_iff : ls.flatMap cut ++ cutEnd t = linesOf ls t ↔
    t = [] ∧ ∀ l ∈ ls, l.length + 1 < lineSize := by
  by_cases ht : t = []
  · rw [linesOf, if_pos ht, ht, cutEnd, if_pos rfl, List.append_nil, flatMap_cut_eq_iff,
      and_iff_right rfl]
  · refine iff_of_false (fun h => ?_) fun h => ht h.1
    rw [linesOf, if_neg ht] at h
    have hlen := congrArg List.length h
    have hone := one_le_length_cutEnd ht
    have hrest := length_le_cut ls
    rw [List.length_append, List.length_append, List.length_singleton] at hlen
    exact cutEnd_ne ht (List.append_inj_right h (by omega))

theorem events_simpleShell0 (ls : List Str) :
    events simpleShell0 ls = ls.flatMap fun l => [.system l, .prompt] := by
  induction ls with
  | nil => rfl
  | cons l ls ih =>
      rw [events, simpleShell0, List.flatMap_cons, ← ih]
      rfl

/-- The commands among the events. -/
def Event.command : Event → Option Str
  | .prompt => none
  | .system command => some command

/-- **`simple-shell0` runs the lines of its input**, exactly when they fit and the last one has its
newline. -/
theorem simpleShell0_runs_iff (hls : ∀ l ∈ ls, Typed l) (ht : Typed t) :
    main simpleShell0 (typed ls ++ t) =
        some (.prompt :: (linesOf ls t).flatMap fun l => [.system l, .prompt]) ↔
      t = [] ∧ ∀ l ∈ ls, l.length + 1 < lineSize := by
  have hcommands : ∀ ls : List Str,
      (events simpleShell0 ls).filterMap Event.command = ls := by
    intro ls
    induction ls with
    | nil => rfl
    | cons l ls ih => exact congrArg (l :: ·) ih
  rw [main_typed hls ht, ← cuts_eq_iff, ← events_simpleShell0]
  constructor
  · intro h
    have hevents := (List.cons.inj (Option.some.inj h)).2
    rw [← hcommands (ls.flatMap cut ++ cutEnd t), hevents, hcommands]
  · intro h
    rw [h]

theorem ls_cut : main simpleShell0 (typed ["ls".toList, List.replicate 255 'a'] ++ "wc".toList) =
    some (.prompt :: (linesOf ["ls".toList, List.replicate 255 'a'] "wc".toList).flatMap fun l =>
      [.system l, .prompt]) ↔
    "wc".toList = [] ∧ ∀ l ∈ ["ls".toList, List.replicate 255 'a'], l.length + 1 < lineSize := by
  refine simpleShell0_runs_iff ?_ ⟨by decide, by decide⟩
  simp only [List.forall_mem_cons]
  refine ⟨⟨by decide, by decide⟩, ⟨?_, ?_⟩, fun l hl => absurd hl List.not_mem_nil⟩
  · exact fun h => absurd (List.eq_of_mem_replicate h) (by decide)
  · exact fun h => absurd (List.eq_of_mem_replicate h) (by decide)

theorem events_myshell (ls : List Str) :
    events myshell ls = ((ls.takeWhile fun l => !eqIgnoreCase l "exit".toList).filterMap
      myshell).flatMap fun command => [.system command, .prompt] := by
  induction ls with
  | nil => rfl
  | cons l ls ih =>
      by_cases hexit : eqIgnoreCase l "exit".toList = true
      · have hnone : myshell l = none := if_pos hexit
        rw [events, hnone, List.takeWhile_cons_of_neg (by simp only [hexit]; decide)]
        rfl
      · obtain ⟨command, hsome⟩ : ∃ command, myshell l = some command := by
          rw [myshell, if_neg hexit]
          split_ifs <;> exact ⟨_, rfl⟩
        have hno : eqIgnoreCase l "exit".toList = false := Bool.eq_false_iff.mpr hexit
        rw [events, hsome, List.takeWhile_cons_of_pos (by simp only [hno]; decide),
          List.filterMap_cons_some hsome, List.flatMap_cons, ← ih]
        rfl

/-- **`myshell` up to `exit`.** It runs what comes before the first `exit`, in upper or lower case,
with a prompt before each command and one at the end. -/
theorem myshell_runs (hls : ∀ l ∈ ls, Typed l) (ht : Typed t) :
    main myshell (typed ls ++ t) = some (.prompt ::
      (((ls.flatMap cut ++ cutEnd t).takeWhile fun l => !eqIgnoreCase l "exit".toList).filterMap
        myshell).flatMap fun command => [.system command, .prompt]) := by
  rw [main_typed hls ht, events_myshell]

theorem exit_runs : main myshell (typed ["listall".toList, "EXIT".toList] ++ "wc".toList) =
    some (.prompt :: (((["listall".toList, "EXIT".toList].flatMap cut ++
      cutEnd "wc".toList).takeWhile fun l => !eqIgnoreCase l "exit".toList).filterMap
        myshell).flatMap fun command => [.system command, .prompt]) := by
  refine myshell_runs ?_ ⟨by decide, by decide⟩
  simp only [List.forall_mem_cons]
  exact ⟨⟨by decide, by decide⟩, ⟨by decide, by decide⟩, fun l hl => absurd hl List.not_mem_nil⟩

end UnixSys.Shell.BySystem
