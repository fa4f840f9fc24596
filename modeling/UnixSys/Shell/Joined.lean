import UnixSys.Shell.Meaning

/-!
# Joined — commands on one line

The line `c₁ ; c₂ ; ... ; cₙ`: its tokens are those of the commands with a `;` between
them, its fields the commands themselves, and its redirections those of the commands one
after the other.
-/

namespace UnixSys.Shell

open Posix

/-- The line `c₁ ; c₂ ; ... ; cₙ`. -/
def joined : List Str → Str
  | [] => []
  | [c] => c
  | c :: d :: cs => c ++ ' ' :: ';' :: ' ' :: joined (d :: cs)

/-- A command that can stand between two `;`: it has a word, no blank at its ends, and no
`;` in it. -/
structure Segment (c : Str) : Prop where
  ne_nil : c ≠ []
  tight : Tight c
  single : ';' ∉ c

section
variable {c : Str} (hc : Segment c)
include hc

theorem Segment.tokens_ne_nil : tokens c ≠ [] := by
  obtain ⟨b, t, hbt⟩ := List.exists_cons_of_ne_nil hc.ne_nil
  have hb : isBlank b = false := hc.tight.first b (by rw [hbt]; rfl)
  rw [hc.tight.tokens_eq, hbt, words, pieces_cons_not_sep isBlank t hb]
  exact List.cons_ne_nil _ _

/-- The tokens of the command and of what follows its `;`. -/
theorem Segment.tokens_append {r : Str} (hr : r ≠ []) :
    tokens (c ++ ' ' :: ';' :: ' ' :: r) = tokens c ++ ";".toList :: tokens r := by
  have hwords : words (c ++ ' ' :: ';' :: ' ' :: r) = words c ++ ";".toList :: words r := by
    have hafter : words (';' :: ' ' :: r) = ";".toList :: words r := by
      have h := pieces_append_sep isBlank [';'] r (by rfl : isBlank ' ' = true)
      rw [pieces_of_forall isBlank (List.cons_ne_nil _ _) (by simp [isBlank])] at h
      exact h
    rw [words, pieces_append_sep isBlank c _ (by rfl : isBlank ' ' = true)]
    exact congrArg (words c ++ ·) hafter
  have hends : endsBlank (c ++ ' ' :: ';' :: ' ' :: r) = endsBlank r := by
    have hsplit : c ++ ' ' :: ';' :: ' ' :: r = (c ++ " ; ".toList) ++ r := by
      simp
    rw [hsplit, endsBlank_append hr]
  rw [hc.tight.tokens_eq, tokens, tokens, hwords, hends, List.append_assoc, List.cons_append]

/-- Spaces around the command are trimmed away. -/
theorem Segment.trimmed_pad {pre post : Str} (hpre : ∀ b ∈ pre, b = ' ')
    (hpost : ∀ b ∈ post, b = ' ') : trimmed (pre ++ (c ++ post)) = c := by
  have hfirst : ∀ t : Str, (c ++ t).dropWhile (· = ' ') = c ++ t := by
    intro t
    obtain ⟨b, u, hbu⟩ := List.exists_cons_of_ne_nil hc.ne_nil
    have hb : isBlank b = false := hc.tight.first b (by rw [hbu]; rfl)
    have hne : ¬ (b = ' ') := by
      rintro rfl
      cases hb
    rw [hbu, List.cons_append, List.dropWhile_cons_of_neg (by simpa using hne)]
  have hlast : (c ++ post).rdropWhile (· = ' ') = c.rdropWhile (· = ' ') := by
    induction post using List.reverseRecOn with
    | nil => rw [List.append_nil]
    | append_singleton post b ih =>
        have hb : b = ' ' := hpost b (by simp)
        rw [← List.append_assoc, List.rdropWhile_concat_pos _ _ _ (by simpa using hb)]
        exact ih fun d hd => hpost d (by simp [hd])
  have hself := hfirst []
  rw [List.append_nil] at hself
  have htrimmed := hc.tight.trimmed_eq
  rw [trimmed, hself] at htrimmed
  rw [trimmed, List.dropWhile_append_of_pos (by simpa using hpre), hfirst, hlast]
  exact htrimmed

end

/-! ## The joined line -/

section
variable {cs : List Str}

theorem joined_ne_nil (hne : cs ≠ []) (hcs : ∀ c ∈ cs, Segment c) : joined cs ≠ [] := by
  induction cs using joined.induct with
  | case1 => exact absurd rfl hne
  | case2 c => exact (hcs c List.mem_cons_self).ne_nil
  | case3 c d cs => simp [joined]

theorem tokens_joined_cons {c d : Str} (hcs : ∀ e ∈ c :: d :: cs, Segment e) :
    tokens (joined (c :: d :: cs)) = tokens c ++ ";".toList :: tokens (joined (d :: cs)) := by
  have hrest : joined (d :: cs) ≠ [] :=
    joined_ne_nil (List.cons_ne_nil d cs) fun e he => hcs e (List.mem_cons_of_mem c he)
  exact (hcs c List.mem_cons_self).tokens_append hrest

theorem length_joined {c : Str} (hc : c ∈ cs) : c.length ≤ (joined cs).length := by
  induction cs using joined.induct with
  | case1 => cases hc
  | case2 d => rw [List.mem_singleton.mp hc]; rfl
  | case3 d e cs ih =>
      rw [joined, List.length_append]
      rcases List.mem_cons.mp hc with rfl | hc
      · exact Nat.le_add_right _ _
      · have h := ih hc
        simp only [List.length_cons]
        omega

theorem length_tokens_joined (hcs : ∀ c ∈ cs, Segment c) {c : Str} (hc : c ∈ cs) :
    (tokens c).length ≤ (tokens (joined cs)).length := by
  induction cs using joined.induct with
  | case1 => cases hc
  | case2 d => rw [List.mem_singleton.mp hc]; rfl
  | case3 d e cs ih =>
      rw [tokens_joined_cons hcs, List.length_append, List.length_cons]
      rcases List.mem_cons.mp hc with rfl | hc
      · exact Nat.le_add_right _ _
      · have h := ih (fun c hc => hcs c (List.mem_cons_of_mem d hc)) hc
        omega

/-- The first word of the line is the first word of its first command. -/
theorem head_joined {c : Str} {rest : List Str} (hcs : ∀ d ∈ c :: rest, Segment d) :
    (tokens (joined (c :: rest))).head? = (tokens c).head? := by
  cases rest with
  | nil => rfl
  | cons d rest =>
      rw [tokens_joined_cons hcs]
      obtain ⟨w, ws, hw⟩ := List.exists_cons_of_ne_nil (hcs c List.mem_cons_self).tokens_ne_nil
      rw [hw]
      rfl

theorem mem_joined {b : Byte} (hblank : b ≠ ' ') (hsemi : b ≠ ';') :
    b ∈ joined cs ↔ ∃ c ∈ cs, b ∈ c := by
  induction cs using joined.induct with
  | case1 => simp [joined]
  | case2 d => simp [joined]
  | case3 d e cs ih =>
      rw [joined, List.exists_mem_cons_iff, ← ih]
      simp [hblank, hsemi]

theorem External.joined {c : Str} {rest : List Str} (hcs : ∀ d ∈ c :: rest, Segment d)
    (hc : External c) : External (joined (c :: rest)) := by
  rw [External, head_joined hcs]
  exact hc

theorem contains_joined {b : Byte} (hblank : b ≠ ' ') (hsemi : b ≠ ';') :
    (joined cs).contains b = false ↔ ∀ c ∈ cs, c.contains b = false := by
  simp [mem_joined hblank hsemi]

/-- The fields of the line are its commands, with spaces around them. -/
theorem fields_pad_joined (hcs : ∀ c ∈ cs, Segment c) {pre : Str} (hpre : ∀ b ∈ pre, b = ' ')
    (hne : cs ≠ []) : (fields ';' (pre ++ joined cs)).map trimmed = cs := by
  have hnil : ∀ b ∈ ([] : Str), b = ' ' := fun b hb => absurd hb List.not_mem_nil
  have hspace : ∀ b ∈ [' '], b = ' ' := fun b hb => List.mem_singleton.mp hb
  have hfield : ∀ (c : Str) {pre post : Str}, Segment c → (∀ b ∈ pre, b = ' ') →
      (∀ b ∈ post, b = ' ') →
      pieces (· = ';') (pre ++ (c ++ post)) = [pre ++ (c ++ post)] := by
    intro c pre post hc hpre hpost
    refine pieces_of_forall _ ?_ ?_
    · simp [hc.ne_nil]
    · intro b hb
      simp only [List.mem_append] at hb
      rw [decide_eq_false_iff_not]
      rintro rfl
      rcases hb with hb | hb | hb
      · exact absurd (hpre _ hb) (by decide)
      · exact hc.single hb
      · exact absurd (hpost _ hb) (by decide)
  induction cs using joined.induct generalizing pre with
  | case1 => exact absurd rfl hne
  | case2 c =>
      have hc := hcs c List.mem_cons_self
      have h := hfield c hc hpre hnil
      rw [List.append_nil] at h
      rw [joined, fields, h, List.map_singleton]
      have htrim := hc.trimmed_pad hpre hnil
      rw [List.append_nil] at htrim
      rw [htrim]
  | case3 c d cs ih =>
      have hc := hcs c List.mem_cons_self
      have hsplit : pre ++ joined (c :: d :: cs) =
          (pre ++ (c ++ [' '])) ++ ';' :: ([' '] ++ joined (d :: cs)) := by
        simp [joined]
      rw [hsplit, fields, pieces_append_sep _ _ _ (by rfl), hfield c hc hpre hspace,
        List.map_append, List.map_singleton, hc.trimmed_pad hpre hspace]
      have hrest := ih (fun e he => hcs e (List.mem_cons_of_mem c he)) hspace
        (List.cons_ne_nil d cs)
      rw [fields] at hrest
      rw [hrest]
      rfl

theorem fields_joined (hcs : ∀ c ∈ cs, Segment c) (hne : cs ≠ []) :
    (fields ';' (joined cs)).map trimmed = cs := by
  have hnil : ∀ b ∈ ([] : Str), b = ' ' := fun b hb => absurd hb List.not_mem_nil
  exact fields_pad_joined hcs hnil hne

/-- Below the builtins, and with no redirection in it, the line is split at `;`. -/
theorem runPlain_joined {c d : Str} {rest : List Str}
    (hno : ((joined (c :: d :: rest)).contains '<' || (joined (c :: d :: rest)).contains '>') =
      false) : runPlain (joined (c :: d :: rest)) = (do
        runFields (fields ';' (joined (c :: d :: rest)))
        printf prompt) := by
  have hsemi : (joined (c :: d :: rest)).contains ';' = true := by simp [joined]
  rw [runPlain, hno, hsemi]
  rfl

/-- Every field of the line is a command of it. -/
theorem field_joined (hcs : ∀ c ∈ cs, Segment c) (hne : cs ≠ []) {f : Str}
    (hf : f ∈ fields ';' (joined cs)) :
    trimmed f ∈ cs ∧ (tokens (trimmed f)).length ≤ (tokens (joined cs)).length := by
  have hmem : trimmed f ∈ (fields ';' (joined cs)).map trimmed := List.mem_map_of_mem hf
  rw [fields_joined hcs hne] at hmem
  exact ⟨hmem, length_tokens_joined hcs hmem⟩

end

/-! ## Redirections of the joined line -/

section
variable {ts us ws ws' : List Str} {input output input' output' : Option Str}

theorem splitRedir_append (h : splitRedir ts input output ws = some (input', output', ws')) :
    splitRedir (ts ++ us) input output ws = splitRedir us input' output' ws' := by
  induction ts, input, output, ws using splitRedir.induct with
  | case1 input output ws =>
      cases h
      rfl
  | case2 w input output ws hop =>
      rw [splitRedir, if_pos hop] at h
      cases h
  | case3 w input output ws hop =>
      rw [splitRedir, if_neg hop] at h
      cases h
      cases us with
      | nil =>
          show splitRedir [w] _ _ _ = some _
          rw [splitRedir, if_neg hop]
      | cons next rest =>
          rw [not_isOperator_iff] at hop
          rw [List.singleton_append, splitRedir, if_neg hop.1, if_neg hop.2]
  | case4 next rest input output ws ih =>
      rw [splitRedir, if_pos rfl] at h
      rw [List.cons_append, List.cons_append, splitRedir, if_pos rfl, ih h]
  | case5 next rest input output ws hne ih =>
      rw [splitRedir, if_neg hne, if_pos rfl] at h
      rw [List.cons_append, List.cons_append, splitRedir, if_neg hne, if_pos rfl, ih h]
  | case6 w next rest input output ws hlt hgt ih =>
      rw [splitRedir, if_neg hlt, if_neg hgt] at h
      rw [List.cons_append, List.cons_append, splitRedir, if_neg hlt, if_neg hgt,
        ← List.cons_append, ih h]

/-- Whether the scan comes to its end depends on the tokens only. -/
theorem splitRedir_none (h : splitRedir ts input output ws = none) :
    splitRedir ts input' output' ws' = none := by
  induction ts, input, output, ws using splitRedir.induct generalizing input' output' ws' with
  | case1 input output ws => cases h
  | case2 w input output ws hop => rw [splitRedir, if_pos hop]
  | case3 w input output ws hop =>
      rw [splitRedir, if_neg hop] at h
      cases h
  | case4 next rest input output ws ih =>
      rw [splitRedir, if_pos rfl] at h ⊢
      exact ih h
  | case5 next rest input output ws hne ih =>
      rw [splitRedir, if_neg hne, if_pos rfl] at h ⊢
      exact ih h
  | case6 w next rest input output ws hlt hgt ih =>
      rw [splitRedir, if_neg hlt, if_neg hgt] at h ⊢
      exact ih h

/-- A scan that does not come to its end has met an operator. -/
theorem splitRedir_none_operator (h : splitRedir ts input output ws = none) :
    ∃ word ∈ ts, isOperator word = true := by
  induction ts, input, output, ws using splitRedir.induct with
  | case1 input output ws => cases h
  | case2 w input output ws hop => exact ⟨w, List.mem_singleton_self w, hop⟩
  | case3 w input output ws hop =>
      rw [splitRedir, if_neg hop] at h
      cases h
  | case4 next rest input output ws ih => exact ⟨_, List.mem_cons_self, rfl⟩
  | case5 next rest input output ws hne ih => exact ⟨_, List.mem_cons_self, rfl⟩
  | case6 w next rest input output ws hlt hgt ih =>
      rw [splitRedir, if_neg hlt, if_neg hgt] at h
      obtain ⟨word, hword, hop⟩ := ih h
      exact ⟨word, List.mem_cons_of_mem w hword, hop⟩

end

/-- The line has a file name after each operator when its commands have one. -/
theorem joined_not_dangling {cs : List Str} (hcs : ∀ c ∈ cs, Segment c)
    (hnamed : ∀ c ∈ cs, ¬ Dangling (tokens c)) : ¬ Dangling (tokens (joined cs)) := by
  induction cs using joined.induct with
  | case1 =>
      intro h
      rw [joined, tokens_nil] at h
      cases h
  | case2 c => exact hnamed c List.mem_cons_self
  | case3 c d cs ih =>
      intro h
      obtain ⟨⟨input, output, ws⟩, hsplit⟩ :=
        Option.ne_none_iff_exists'.mp (hnamed c List.mem_cons_self)
      rw [Dangling, tokens_joined_cons hcs, splitRedir_append hsplit] at h
      have hrest : ¬ Dangling (tokens (joined (d :: cs))) :=
        ih (fun e he => hcs e (List.mem_cons_of_mem c he))
          fun e he => hnamed e (List.mem_cons_of_mem c he)
      cases htokens : tokens (joined (d :: cs)) with
      | nil =>
          rw [htokens] at h
          cases h
      | cons w rest =>
          have hsemi : ";".toList ≠ "<".toList ∧ ";".toList ≠ ">".toList := by decide
          rw [htokens, splitRedir, if_neg hsemi.1, if_neg hsemi.2, ← htokens] at h
          exact hrest (splitRedir_none h)

end UnixSys.Shell
