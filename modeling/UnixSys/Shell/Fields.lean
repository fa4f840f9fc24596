import UnixSys.Shell.Tokens
import Mathlib.Data.List.DropRight

/-!
# Fields — `strtok` and the trimming, in place

What one round of the `;` and `|` loops does to `line_backup`: `strtok` cuts the
next non-empty field out of the unread text, the trimming narrows it. Both
write inside the field (and the one delimiter after it), so the unread text is
as it was.
-/

namespace UnixSys.Shell

/-- The fields of `s` that `strtok` visits with delimiter `d`. -/
def fields (d : Byte) (s : Str) : List Str := pieces (· = d) s

/-- A field without its leading and trailing spaces. -/
def trimmed (s : Str) : Str := (s.dropWhile (· = ' ')).rdropWhile (· = ' ')

/-! ## The trimming -/

theorem skipSpaces_eq (fuel : Nat) (pre t post : Str) (hf : t.length < fuel) :
    skipSpaces fuel (pre ++ (t ++ NUL :: post)) pre.length =
      some (pre.length + (t.takeWhile (· = ' ')).length) := by
  induction t generalizing fuel pre with
  | nil =>
      obtain ⟨n, rfl⟩ := Nat.exists_eq_succ_of_ne_zero (Nat.ne_of_gt hf)
      simp [skipSpaces, NUL]
  | cons c t ih =>
      obtain ⟨n, rfl⟩ : ∃ n, fuel = n + 1 := ⟨fuel - 1, by simp at hf; omega⟩
      rw [skipSpaces, List.cons_append, getElem?_at]
      by_cases hc : c = ' '
      · have := ih n (pre ++ [c]) (by simpa using hf)
        simp only [List.append_assoc, List.singleton_append, List.length_append,
          List.length_singleton] at this
        simp [hc] at this ⊢
        rw [this]
        simp [Nat.add_assoc, Nat.add_comm 1]
      · simp [hc]

theorem replicate_NUL_cons (k : Nat) (r : Str) :
    List.replicate k NUL ++ NUL :: r = NUL :: (List.replicate k NUL ++ r) := by
  rw [← List.singleton_append, ← List.append_assoc, ← List.replicate_succ',
    List.replicate_succ, List.cons_append]

/-- The second loop of the trimming on a field `t` with `k` spaces after it, of
which the loop has already overwritten `j`. -/
theorem trimEnd_eq (fuel : Nat) (pre t : Str) (k j : Nat) (post : Str) (hf : k < fuel)
    (ht : ∀ h : t ≠ [], t.getLast h ≠ ' ') (hne : t = [] → k = 0) :
    trimEnd fuel (pre ++ (t ++ (List.replicate k ' ' ++ (List.replicate j NUL ++ post))))
        pre.length (pre.length + (t.length + k) - 1) =
      some (pre ++ (t ++ (List.replicate (k + j) NUL ++ post))) := by
  induction k generalizing fuel j with
  -- the loop stops at the last byte of `t`, or before the field when `t` is empty
  | zero =>
      obtain ⟨n, rfl⟩ := Nat.exists_eq_succ_of_ne_zero (Nat.ne_of_gt hf)
      rw [trimEnd]
      split
      · rename_i hlt
        have htne : t ≠ [] := by
          rintro rfl
          simp at hlt
          omega
        obtain ⟨t₀, x, rfl⟩ : ∃ t₀ x, t = t₀ ++ [x] :=
          ⟨_, _, (List.dropLast_append_getLast htne).symm⟩
        have hx : x ≠ ' ' := by simpa using ht htne
        have hidx : ((pre.length : Int) + (((t₀ ++ [x]).length : Int) + (0 : Nat)) - 1).toNat =
            (pre ++ t₀).length := by
          simp only [List.length_append, List.length_singleton]
          omega
        rw [hidx, show pre ++ (t₀ ++ [x] ++ (List.replicate 0 ' ' ++
          (List.replicate j NUL ++ post))) = pre ++ t₀ ++ x :: (List.replicate j NUL ++ post) by
            simp, getElem?_at]
        simp [hx]
      · simp
  -- the last space becomes a NUL, and joins those behind it
  | succ k ih =>
      obtain ⟨n, rfl⟩ : ∃ n, fuel = n + 1 := ⟨fuel - 1, by omega⟩
      have htne : t ≠ [] := fun h => by simpa using hne h
      have hpos := List.length_pos_iff.mpr htne
      rw [trimEnd, if_pos (by omega)]
      have hidx : ((pre.length : Int) + ((t.length : Int) + (k + 1 : Nat)) - 1).toNat =
          (pre ++ (t ++ List.replicate k ' ')).length := by
        simp only [List.length_append, List.length_replicate]
        omega
      have hblk : pre ++ (t ++ (List.replicate (k + 1) ' ' ++ (List.replicate j NUL ++ post))) =
          pre ++ (t ++ List.replicate k ' ') ++ ' ' :: (List.replicate j NUL ++ post) := by
        simp [List.replicate_succ']
      rw [hidx, hblk, getElem?_at]
      simp only [Option.bind_eq_bind, Option.bind_some, if_true, set_at]
      have := ih n (j + 1) (by omega) (fun h => absurd h htne)
      rw [show pre ++ (t ++ (List.replicate k ' ' ++ (List.replicate (j + 1) NUL ++ post))) =
          pre ++ (t ++ List.replicate k ' ') ++ NUL :: (List.replicate j NUL ++ post) by
        simp [List.replicate_succ]] at this
      rw [show (pre.length : Int) + ((t.length : Int) + (k + 1 : Nat)) - 1 - 1 =
          (pre.length : Int) + ((t.length : Int) + k) - 1 by push_cast; omega, this,
        show k + (j + 1) = k + 1 + j by omega]

theorem rdropWhile_replicate (s : Str) :
    ∃ k, s = s.rdropWhile (· = ' ') ++ List.replicate k ' ' := by
  refine ⟨(s.rtakeWhile (· = ' ')).length, ?_⟩
  have hrep : s.rtakeWhile (· = ' ') = List.replicate (s.rtakeWhile (· = ' ')).length ' ' := by
    refine List.eq_replicate_length.mpr fun c hc => ?_
    simpa using List.mem_rtakeWhile_imp hc
  rw [← hrep, List.rdropWhile_append_rtakeWhile]

theorem trimmed_subset {t : Str} {c : Byte} (h : c ∈ trimmed t) : c ∈ t :=
  (List.dropWhile_suffix _).subset ((List.rdropWhile_prefix _ _).subset h)

/-- A field is its leading spaces, the trimmed field and its trailing spaces. -/
theorem trimmed_cut (t : Str) : ∃ k,
    t = t.takeWhile (· = ' ') ++ (trimmed t ++ List.replicate k ' ') ∧
    (∀ h : trimmed t ≠ [], (trimmed t).getLast h ≠ ' ') ∧ (trimmed t = [] → k = 0) := by
  obtain ⟨k, hk⟩ := rdropWhile_replicate (t.dropWhile (· = ' '))
  change t.dropWhile (· = ' ') = trimmed t ++ _ at hk
  refine ⟨k, ?_, ?_, ?_⟩
  · rw [← hk, List.takeWhile_append_dropWhile]
  · intro h
    have := List.rdropWhile_last_not (· = ' ') (t.dropWhile (· = ' ')) h
    rw [decide_eq_true_eq] at this
    exact this
  · -- otherwise the field after its leading spaces would start with a space
    intro h
    by_contra hk0
    rw [h, List.nil_append] at hk
    have hne : t.dropWhile (· = ' ') ≠ [] := by simp [hk, hk0]
    have := List.head_dropWhile_not (p := (· = ' ')) (l := t) hne
    simp [hk] at this

/-- Spaces at the ends of a field are no part of its words. -/
theorem words_trimmed (t : Str) : words (trimmed t) = words t := by
  obtain ⟨k, hcut, -, -⟩ := trimmed_cut t
  have hlead : ∀ c ∈ t.takeWhile (· = ' '), isBlank c = true := by
    intro c hc
    have hspace : c = ' ' := by simpa using List.mem_takeWhile_imp hc
    rw [hspace]
    rfl
  have htrail : ∀ c ∈ List.replicate k ' ', isBlank c = true := by
    intro c hc
    rw [List.eq_of_mem_replicate hc]
    rfl
  conv_rhs => rw [hcut]
  exact (pieces_append_seps isBlank hlead htrail).symm

/-- The trimming of a field `t`: `command` ends up at the trimmed field, which a
NUL now follows. -/
theorem trim_eq (pre t post : Str) (ht : NUL ∉ t) : ∃ lead k,
    trim (pre ++ (t ++ NUL :: post)) pre.length =
      some (pre ++ lead ++ (trimmed t ++ NUL :: (List.replicate k NUL ++ post)),
        (pre ++ lead).length) ∧
    lead.length + (trimmed t).length + k = t.length := by
  obtain ⟨k, hcut, hlast, hzero⟩ := trimmed_cut t
  obtain ⟨lead, hlead⟩ : ∃ lead, lead = t.takeWhile (· = ' ') := ⟨_, rfl⟩
  rw [← hlead] at hcut
  have hlen := congrArg List.length hcut
  simp only [List.length_append, List.length_replicate] at hlen
  refine ⟨lead, k, ?_, by omega⟩
  have hskip := skipSpaces_eq ((pre ++ (t ++ NUL :: post)).length + 1) pre t post
    (by simp; omega)
  have hend := trimEnd_eq ((pre ++ (t ++ NUL :: post)).length + 1) (pre ++ lead) (trimmed t) k 0
    (NUL :: post) (by simp; omega) hlast hzero
  have hnul : NUL ∉ trimmed t ++ List.replicate k ' ' := by
    intro hm
    refine ht ?_
    rw [hcut]
    exact List.mem_append_right _ hm
  have hblk : pre ++ (t ++ NUL :: post) =
      pre ++ lead ++ (trimmed t ++ List.replicate k ' ' ++ NUL :: post) := by
    conv_lhs => rw [hcut]
    simp only [List.append_assoc]
  have hoff : pre.length + (t.takeWhile (· = ' ')).length = (pre ++ lead).length := by
    rw [List.length_append, hlead]
  have hstr : cstrOf ((pre ++ (t ++ NUL :: post)).drop (pre ++ lead).length) =
      some (trimmed t ++ List.replicate k ' ') := by
    rw [hblk, List.drop_left, cstrOf_append hnul]
  -- the first loop skips the blanks in front, the second overwrites those behind
  rw [trim, hskip, hoff]
  simp only [Option.bind_eq_bind, Option.bind_some, hstr]
  simp only [List.replicate_zero, List.nil_append, Nat.add_zero] at hend
  have hcmd : (trimmed t ++ List.replicate k ' ').length = (trimmed t).length + k := by simp
  rw [hcmd, Int.natCast_add]
  rw [hblk] at hend ⊢
  simp only [List.append_assoc] at hend ⊢
  rw [hend]
  simp only [Option.bind_some, replicate_NUL_cons]

/-! ## strtok -/

theorem strtok_none {d : Byte} {pre u post : Str} (hu : NUL ∉ u) (h : fields d u = []) :
    strtok d (pre ++ (u ++ NUL :: post)) pre.length =
      some (pre ++ (u ++ NUL :: post), none) := by
  have hall : ∀ c ∈ u, decide (c = d) = true := (pieces_eq_nil_iff _).mp h
  have hdrop : u.dropWhile (· = d) = [] := List.dropWhile_eq_nil_iff.mpr hall
  rw [strtok, List.drop_left, cstrOf_append hu]
  simp [hdrop]

/-- `strtok` on unread text `u` whose first field is `tok`. What follows the
token (`z`, then the unread text `u'`) starts with a NUL in either case: the
overwritten delimiter, or the end of the string. -/
theorem strtok_some {d : Byte} (pre post : Str) {u tok : Str} {fs : List Str} (hu : NUL ∉ u)
    (h : fields d u = tok :: fs) : ∃ lead z u' v,
    strtok d (pre ++ (u ++ NUL :: post)) pre.length =
      some (pre ++ lead ++ (tok ++ (z ++ (u' ++ NUL :: post))),
        some ((pre ++ lead).length, (pre ++ lead).length + tok.length + z.length)) ∧
    fields d u' = fs ∧ z ++ (u' ++ NUL :: post) = NUL :: v ∧ NUL ∉ tok ∧ NUL ∉ u' ∧
    lead.length + tok.length + z.length + u'.length = u.length := by
  obtain ⟨lead, hlead⟩ : ∃ lead, lead = u.takeWhile (· = d) := ⟨_, rfl⟩
  obtain ⟨r, hr⟩ : ∃ r, r = u.dropWhile (· = d) := ⟨_, rfl⟩
  have hcut : u = lead ++ r := by rw [hlead, hr, List.takeWhile_append_dropWhile]
  have hfr : fields d r = tok :: fs := by rw [← h, hr, fields, pieces_dropWhile, fields]
  have hrne : r ≠ [] := by
    rintro rfl
    simp [fields] at hfr
  obtain ⟨c, r', rfl⟩ := List.exists_cons_of_ne_nil hrne
  have hc : (decide (c = d)) = false := by
    have := List.head_dropWhile_not (p := (· = d)) (l := u) (hr ▸ hrne)
    simpa [← hr] using this
  rw [fields, pieces_cons_not_sep (p := (· = d)) _ hc, List.cons.injEq] at hfr
  obtain ⟨htok, hfs⟩ := hfr
  have htokne : tok ≠ [] := by
    rw [← htok]
    simp [hc]
  obtain ⟨q, hq⟩ : ∃ q, q = (c :: r').dropWhile (fun x => !decide (x = d)) := ⟨_, rfl⟩
  have hcq : c :: r' = tok ++ q := by rw [← htok, hq, List.takeWhile_append_dropWhile]
  have hnul : NUL ∉ lead ++ (tok ++ q) := by rwa [hcut, hcq] at hu
  simp only [List.mem_append, not_or] at hnul
  rw [← hq] at hfs
  -- `strtok` up to the decision whether a delimiter follows the token
  have hfun : (fun x : Byte => decide (x ≠ d)) = fun x => !decide (x = d) := by
    funext x
    simp
  have hstr : cstrOf ((pre ++ (u ++ NUL :: post)).drop pre.length) = some u := by
    rw [List.drop_left, cstrOf_append hu]
  rw [strtok, hstr]
  simp only [Option.bind_eq_bind, Option.bind_some, ← hlead, ← hr, hfun, htok, htokne, if_false]
  have hlen : u.length = lead.length + (tok.length + q.length) := by
    rw [hcut, hcq, List.length_append, List.length_append]
  have hoff : pre.length + lead.length = (pre ++ lead).length := by rw [List.length_append]
  cases hqc : q with
  | nil =>
      rw [hqc, List.length_nil] at hlen
      rw [hqc] at hcq hfs
      refine ⟨lead, [], [], post, ?_, ?_, rfl, hnul.2.1, by simp, by simp [hlen]⟩
      · rw [if_pos (by omega), hcut, hcq]
        simp
      · simpa [fields] using hfs
  | cons e u' =>
      have he : e = d := by
        have := List.head_dropWhile_not (p := (fun x => !decide (x = d))) (l := c :: r')
          (by simp [← hq, hqc])
        simpa [← hq, hqc] using this
      subst he
      rw [hqc, List.length_cons] at hlen
      rw [hqc] at hcq hfs hnul
      refine ⟨lead, [NUL], u', u' ++ NUL :: post, ?_, ?_, rfl, hnul.2.1, ?_, by simp [hlen]; omega⟩
      · have hblk : pre ++ (u ++ NUL :: post) =
            pre ++ lead ++ tok ++ e :: (u' ++ NUL :: post) := by
          rw [hcut, hcq]
          simp
        have hidx : pre.length + lead.length + tok.length = (pre ++ lead ++ tok).length := by
          simp [Nat.add_assoc]
        rw [if_neg (by omega), hidx, hblk, set_at]
        simp [Nat.add_assoc]
      · rw [← hfs, fields, pieces_cons_sep _ _ (by simp)]
      · intro hm
        exact hnul.2.2 (List.mem_cons_of_mem _ hm)

end UnixSys.Shell
