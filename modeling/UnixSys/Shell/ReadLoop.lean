import UnixSys.Shell.Refine

/-!
# ReadLoop — from the byte stream to the command strings

`fgets` cuts the stream into chunks of at most 4095 bytes, and the loop takes
one byte off the end of each. `reads_lines_iff` says for which streams that
leaves the lines of the stream.
-/

namespace UnixSys.Shell

/-! ## Lines -/

/-- The lines of a text, each with whether a newline ends it. -/
def lines : Str → List (Str × Bool)
  | [] => []
  | c :: s =>
      if c = '\n' then ([], true) :: lines s
      else match lines s with
        | [] => [([c], false)]
        | (t, ended) :: rest => (c :: t, ended) :: rest

theorem lines_newline (s : Str) : lines ('\n' :: s) = ([], true) :: lines s := by
  simp [lines]

theorem lines_ended {t : Str} (ht : '\n' ∉ t) (s : Str) :
    lines (t ++ '\n' :: s) = (t, true) :: lines s := by
  induction t with
  | nil => exact lines_newline s
  | cons c t ih =>
      have hc : c ≠ '\n' := fun h => ht (h ▸ List.mem_cons_self)
      rw [List.cons_append, lines, if_neg hc, ih fun h => ht (List.mem_cons_of_mem c h)]

theorem lines_unended {t : Str} (ht : '\n' ∉ t) (hne : t ≠ []) : lines t = [(t, false)] := by
  induction t with
  | nil => exact absurd rfl hne
  | cons c t ih =>
      have hc : c ≠ '\n' := fun h => ht (h ▸ List.mem_cons_self)
      have ht' : '\n' ∉ t := fun h => ht (List.mem_cons_of_mem c h)
      rw [lines, if_neg hc]
      by_cases hnil : t = []
      · rw [hnil, lines]
      · rw [ih ht' hnil]

theorem lines_ne_nil {s : Str} (hs : s ≠ []) : lines s ≠ [] := by
  cases s with
  | nil => exact absurd rfl hs
  | cons c s =>
      rw [lines]
      split
      · exact List.cons_ne_nil _ _
      · cases lines s with
        | nil => exact List.cons_ne_nil _ _
        | cons line rest => exact List.cons_ne_nil _ _

/-- A text is a line, and the text after it if a newline ends the line. -/
theorem first_line (s : Str) :
    (∃ t r, '\n' ∉ t ∧ s = t ++ '\n' :: r ∧ s.takeWhile (· ≠ '\n') = t) ∨
    ('\n' ∉ s ∧ s.takeWhile (· ≠ '\n') = s) := by
  obtain ⟨t, ht⟩ : ∃ t, t = s.takeWhile (· ≠ '\n') := ⟨_, rfl⟩
  have hcut := List.takeWhile_append_dropWhile (p := (· ≠ '\n')) (l := s)
  have hnl : '\n' ∉ t := by
    rw [ht]
    intro hm
    simpa using List.mem_takeWhile_imp hm
  rw [← ht] at hcut
  cases hd : s.dropWhile (· ≠ '\n') with
  | nil =>
      rw [hd, List.append_nil] at hcut
      exact .inr ⟨hcut ▸ hnl, ht.symm.trans hcut⟩
  | cons c r =>
      have := List.head_dropWhile_not (p := (· ≠ '\n')) (l := s) (hd ▸ List.cons_ne_nil c r)
      simp only [hd, List.head_cons, decide_eq_false_iff_not, not_not] at this
      rw [hd, this] at hcut
      exact .inl ⟨t, r, hnl, hcut.symm, ht.symm⟩

/-! ## Chunks -/

theorem chunksFrom_succ (fuel : Nat) {s : Str} (hs : s ≠ []) : chunksFrom (fuel + 1) s =
    (fgets maxLine s).1 :: chunksFrom fuel (fgets maxLine s).2 := if_neg hs

theorem fgets_rest_lt {s : Str} (hs : s ≠ []) : (fgets maxLine s).2.length < s.length := by
  have hpos := List.length_pos_iff.mpr hs
  simp only [fgets, List.length_drop, maxLine]
  omega

/-- Fuel beyond the length of the stream changes nothing. -/
theorem chunksFrom_eq {fuel : Nat} {s : Str} (h : s.length ≤ fuel) :
    chunksFrom fuel s = chunks s := by
  induction hn : s.length using Nat.strong_induction_on generalizing fuel s with
  | _ n ih =>
      by_cases hs : s = []
      · subst hs
        cases fuel <;> rfl
      · have hpos := List.length_pos_iff.mpr hs
        obtain ⟨fuel, rfl⟩ : ∃ m, fuel = m + 1 := ⟨fuel - 1, by omega⟩
        obtain ⟨len, hlen⟩ : ∃ len, s.length = len + 1 := ⟨s.length - 1, by omega⟩
        have hrest := fgets_rest_lt hs
        rw [chunks, hlen, chunksFrom_succ _ hs, chunksFrom_succ _ hs,
          ih _ (by omega) (by omega) rfl, ih _ (by omega) (by omega) rfl]

theorem chunks_cons {s : Str} (hs : s ≠ []) :
    chunks s = (fgets maxLine s).1 :: chunks (fgets maxLine s).2 := by
  have hrest := fgets_rest_lt hs
  obtain ⟨len, hlen⟩ : ∃ len, s.length = len + 1 := ⟨s.length - 1, by omega⟩
  rw [chunks, hlen, chunksFrom_succ _ hs, chunksFrom_eq (by omega)]

theorem length_fgets_lt (s : Str) : (fgets maxLine s).1.length < maxLine := by
  simp only [fgets, List.length_take, maxLine]
  omega

theorem length_of_mem_chunks {s chunk : Str} (h : chunk ∈ chunks s) : chunk.length < maxLine := by
  rw [chunks] at h
  generalize s.length = fuel at h
  induction fuel generalizing s with
  | zero => cases h
  | succ fuel ih =>
      by_cases hs : s = []
      · rw [hs, chunksFrom, if_pos rfl] at h
        cases h
      · rw [chunksFrom_succ _ hs] at h
        rcases List.mem_cons.mp h with rfl | h
        · exact length_fgets_lt s
        · exact ih h

/-- A line that fits is a chunk with its newline. -/
theorem fgets_ended {size : Nat} {t : Str} (ht : '\n' ∉ t) (hlen : t.length + 1 < size) (r : Str) :
    fgets size (t ++ '\n' :: r) = (t ++ ['\n'], r) := by
  have hall : ∀ c ∈ t, decide (c ≠ '\n') = true := by
    intro c hc
    rw [decide_eq_true_iff]
    rintro rfl
    exact ht hc
  have hmin : min (t.length + 1) (size - 1) = t.length + 1 := by
    omega
  have hcut : t ++ '\n' :: r = (t ++ ['\n']) ++ r := by simp
  rw [fgets, takeWhile_append_stop hall (by simp), hmin, hcut]
  rw [List.take_left' (by simp), List.drop_left' (by simp)]

theorem chunks_ended {t : Str} (ht : '\n' ∉ t) (hlen : t.length + 1 < maxLine) (r : Str) :
    chunks (t ++ '\n' :: r) = (t ++ ['\n']) :: chunks r := by
  rw [chunks_cons (by simp), fgets_ended ht hlen]

/-! ## Commands -/

/-- The line leaves the loop. -/
def isExit (s : Str) : Bool := (tokens s).head?.any (eqIgnoreCase · "exit".toList)

theorem isExit_eq {s word : Str} (hword : (tokens s).head? = some word) :
    isExit s = eqIgnoreCase word "exit".toList := by
  rw [isExit, hword]
  rfl

/-- The elements up to the first one that satisfies `p`, and that one. -/
def upTo {α : Type} (p : α → Bool) : List α → List α
  | [] => []
  | a :: l => a :: if p a then [] else upTo p l

/-- The round on `chunk` leaves the loop. -/
def exits (chunk : Str) : Bool := (command chunk).any isExit

theorem mem_of_mem_upTo {α : Type} {p : α → Bool} {l : List α} {a : α} (h : a ∈ upTo p l) :
    a ∈ l := by
  induction l with
  | nil => exact h
  | cons b l ih =>
      rw [upTo] at h
      rcases List.mem_cons.mp h with rfl | h
      · exact List.mem_cons_self
      · split at h
        · cases h
        · exact List.mem_cons_of_mem b (ih h)

theorem command_eq_none_iff {chunk : Str} (hne : chunk ≠ []) :
    command chunk = none ↔ chunk.head? = some NUL := by
  obtain ⟨c, t, rfl⟩ := List.exists_cons_of_ne_nil hne
  rw [command_def]
  by_cases hc : c = NUL <;> simp [hc]

theorem ne_nil_of_mem_chunks {s chunk : Str} (h : chunk ∈ chunks s) : chunk ≠ [] := by
  induction hn : s.length using Nat.strong_induction_on generalizing s with
  | _ n ih =>
      by_cases hs : s = []
      · subst hs
        cases h
      · have hrest := fgets_rest_lt hs
        rw [chunks_cons hs] at h
        rcases List.mem_cons.mp h with rfl | h
        · intro hnil
          have := congrArg List.length hnil
          have hpos := List.length_pos_iff.mpr hs
          simp only [fgets, List.length_take, maxLine, List.length_nil] at this
          omega
        · exact ih _ (by omega) h rfl

/-- A first line that is cut, or that no newline ends, loses its end. -/
theorem command_ne_line {s t : Str} {ended : Bool} {r : List (Str × Bool)} (hs : NUL ∉ s)
    (hlines : lines s = (t, ended) :: r) (hbad : ¬ (ended = true ∧ t.length + 1 < maxLine)) :
    command (fgets maxLine s).1 ≠ some t := by
  intro h
  obtain ⟨c, r', -, -, -, hlt⟩ := command_eq_some h []
  have hlen : ∀ {u}, NUL ∉ u → command u = some t → u.length = t.length + 1 := by
    intro u hu hc
    have hall : ∀ x ∈ u, decide (x ≠ NUL) = true := by
      intro x hx
      rw [decide_eq_true_iff]
      rintro rfl
      exact hu hx
    rw [command_def, List.takeWhile_eq_self_iff.mpr hall] at hc
    split at hc
    · cases hc
    · rename_i hne
      have hpos := List.length_pos_iff.mpr hne
      rw [← Option.some.inj hc, List.length_dropLast]
      omega
  have hchunk := hlen (fun hm => hs (List.mem_of_mem_take hm)) h
  have hshort := length_fgets_lt s
  rcases first_line s with ⟨u, q, hu, rfl, htake⟩ | ⟨hu, htake⟩
  · rw [lines_ended hu] at hlines
    cases hlines
    refine hbad ⟨rfl, ?_⟩
    omega
  · have hne : s ≠ [] := by
      rintro rfl
      cases hlines
    rw [lines_unended hu hne] at hlines
    cases hlines
    simp only [List.length_take] at hchunk
    omega

/-! ## Lines that are typed -/

/-- The stream of these lines. -/
def typed (ls : List Str) : Str := ls.flatMap (· ++ ['\n'])

theorem chunks_typed {ls : List Str} (hls : ∀ l ∈ ls, '\n' ∉ l ∧ l.length + 1 < maxLine) :
    chunks (typed ls) = ls.map (· ++ ['\n']) := by
  induction ls with
  | nil => rfl
  | cons l ls ih =>
      obtain ⟨hnl, hlen⟩ := hls l List.mem_cons_self
      have hcut : typed (l :: ls) = l ++ '\n' :: typed ls := by simp [typed]
      rw [hcut, chunks_ended hnl hlen, ih fun d hd => hls d (List.mem_cons_of_mem l hd)]
      rfl

end UnixSys.Shell
