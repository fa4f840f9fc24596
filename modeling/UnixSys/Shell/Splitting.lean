import UnixSys.Shell.Refine

/-!
# Splitting — `strtok`, the trimming and `parse` in one buffer

The loops of the `;` and `|` branches cut a field out of `line_backup`, trim it
and, in the `;` branch, parse it where it lies, while `strtok` still reads the
text behind it. `Rounds` is the list of what the loop does, round by round;
`splits_fields` says that there is one round for each field, and that a round
writes nothing outside its field.
-/

namespace UnixSys.Shell

open Posix

/-- One round of a splitting loop: the block after `strtok`, with the field at
`start`; after the trimming, which leaves the pointer at `command`; and after
`parse`, with what is then in `argv`. -/
structure Round where
  cut : Str
  start : Nat
  narrowed : Str
  command : Nat
  left : Str
  argv : PtrArr

/-- The rounds of the loop from the block `s`, with the cursor of `strtok` at
`saved`: `parses` says whether the loop parses the fields where they lie. -/
inductive Rounds (d : Byte) (parses : Bool) : Str → Nat → PtrArr → List Round → Prop
  | done {s s' : Str} {saved : Nat} {argv : PtrArr} :
      strtok d s saved = some (s', none) → Rounds d parses s saved argv []
  | round {s : Str} {saved next : Nat} {argv : PtrArr} {r : Round} {rs : List Round} :
      strtok d s saved = some (r.cut, some (r.start, next)) →
      trim r.cut r.start = some (r.narrowed, r.command) →
      (if parses then parse backupBlk r.narrowed r.command argv else some (r.narrowed, argv)) =
        some (r.left, r.argv) →
      Rounds d parses r.left next r.argv rs → Rounds d parses s saved argv (r :: rs)

/-- The two blocks agree outside the `n` bytes from `start` on. -/
def SameOutside (start n : Nat) (s s' : Str) : Prop :=
  ∀ j, j < start ∨ start + n ≤ j → s'[j]? = s[j]?

theorem sameOutside_append {pre x y post : Str} (h : y.length = x.length) :
    SameOutside pre.length x.length (pre ++ (x ++ post)) (pre ++ (y ++ post)) := by
  intro j hj
  rcases hj with hj | hj
  · rw [List.getElem?_append_left hj, List.getElem?_append_left hj]
  · rw [List.getElem?_append_right (by omega), List.getElem?_append_right (by omega),
      List.getElem?_append_right (by omega), List.getElem?_append_right (by omega), h]

/-- The round takes the field `f`: it trims it, neither the trimming nor `parse`
writes outside it, and `end` first points into it. -/
structure Round.Takes (r : Round) (f : Str) : Prop where
  field : cstrOf (r.cut.drop r.start) = some f
  trimmed : cstrOf (r.narrowed.drop r.command) = some (trimmed f)
  trimWrites : SameOutside r.start f.length r.cut r.narrowed
  parseWrites : SameOutside r.start f.length r.narrowed r.left
  fin : ∃ t, cstrOf (r.cut.drop r.command) = some t ∧ (r.start : Int) ≤ r.command + t.length - 1

/-- The list in `argv` is the one that `parse` makes of a copy of the trimmed field. -/
def Round.Lists (r : Round) (f : Str) : Prop :=
  ∃ block argv', parse 0 (trimmed f ++ [NUL]) 0 (List.replicate maxArg .undef) =
      some (block, argv') ∧
    ∀ m : Mem, m[backupBlk]? = some r.left →
      m.args r.argv = some (tokens (trimmed f)) ∧ Mem.args [block] argv' = m.args r.argv

/-! ## One round -/

/-- `strtok` and the trimming on unread text whose first field is `tok`. -/
theorem cut_field {d : Byte} (pre post : Str) {u tok : Str} {fs : List Str} (hu : NUL ∉ u)
    (h : fields d u = tok :: fs) : ∃ lead lead' k z u' v,
    strtok d (pre ++ (u ++ NUL :: post)) pre.length =
      some (pre ++ lead ++ (tok ++ NUL :: v),
        some ((pre ++ lead).length, (pre ++ lead).length + tok.length + z.length)) ∧
    trim (pre ++ lead ++ (tok ++ NUL :: v)) (pre ++ lead).length =
      some (pre ++ lead ++ (lead' ++ (trimmed tok ++ NUL :: (List.replicate k NUL ++ v))),
        (pre ++ lead ++ lead').length) ∧
    lead'.length + (trimmed tok).length + k = tok.length ∧
    NUL :: v = z ++ (u' ++ NUL :: post) ∧ fields d u' = fs ∧ NUL ∉ tok ∧ tok ≠ [] ∧
    NUL ∉ u' ∧ u'.length < u.length := by
  obtain ⟨lead, z, u', v, hstrtok, hfs, hz, htok, hu', hlen⟩ := strtok_some pre post hu h
  obtain ⟨lead', k, htrim, hlen'⟩ := trim_eq (pre ++ lead) tok v htok
  have hne : tok ≠ [] := (mem_pieces _ (h ▸ List.mem_cons_self : tok ∈ fields d u)).1
  have hpos := List.length_pos_iff.mpr hne
  rw [hz] at hstrtok
  refine ⟨lead, lead', k, z, u', v, hstrtok, ?_, hlen', hz.symm, hfs, htok, hne, hu', by omega⟩
  rw [htrim]
  simp only [List.append_assoc]

section
variable {P lead tok v : Str} {k : Nat} {w : Str}

/-- The block with `w` in the place of the trimmed field. -/
theorem narrowed_eq (P lead w v : Str) (k : Nat) :
    P ++ (lead ++ (w ++ NUL :: (List.replicate k NUL ++ v))) =
      P ++ ((lead ++ (w ++ List.replicate k NUL)) ++ NUL :: v) := by
  rw [← replicate_NUL_cons]
  simp only [List.append_assoc]

theorem takes_of_cut (htok : NUL ∉ tok) (hne : tok ≠ [])
    (hlen : lead.length + (trimmed tok).length + k = tok.length) (argv : PtrArr)
    (hw : w.length = (trimmed tok).length) :
    Round.Takes ⟨P ++ (tok ++ NUL :: v), P.length,
      P ++ (lead ++ (trimmed tok ++ NUL :: (List.replicate k NUL ++ v))), (P ++ lead).length,
      P ++ (lead ++ (w ++ NUL :: (List.replicate k NUL ++ v))), argv⟩ tok := by
  have hmid : ∀ u : Str, u.length = (trimmed tok).length →
      (lead ++ (u ++ List.replicate k NUL)).length = tok.length := by
    intro u hu
    simp only [List.length_append, List.length_replicate]
    omega
  have hpos := List.length_pos_iff.mpr hne
  refine ⟨?_, ?_, ?_, ?_, tok.drop lead.length, ?_, ?_⟩
  · rw [List.drop_left, cstrOf_append htok]
  · show cstrOf ((P ++ (lead ++ _)).drop (P ++ lead).length) = _
    rw [← List.append_assoc, List.drop_left, cstrOf_append fun hm => htok (trimmed_subset hm)]
  · show SameOutside P.length tok.length _ _
    rw [narrowed_eq]
    exact sameOutside_append (hmid _ rfl)
  · show SameOutside P.length tok.length _ _
    rw [narrowed_eq, narrowed_eq, ← hmid _ rfl]
    exact sameOutside_append ((hmid w hw).trans (hmid _ rfl).symm)
  · have hdrop : (P ++ (tok ++ NUL :: v)).drop (P ++ lead).length =
        tok.drop lead.length ++ NUL :: v := by
      rw [List.length_append, List.drop_append, List.drop_eq_nil_of_le (by omega), List.nil_append,
        Nat.add_sub_cancel_left, List.drop_append_of_le_length (by omega)]
    rw [hdrop, cstrOf_append fun hm => htok (List.mem_of_mem_drop hm)]
  · simp only [List.length_append, List.length_drop]
    omega

end

/-- `parse` on a copy makes the same list. -/
theorem lists_of_parse {tok : Str} (hnul : NUL ∉ trimmed tok)
    (hroom : (tokens (trimmed tok)).length < maxArg) (r : Round)
    (hargs : ∀ m : Mem, m[backupBlk]? = some r.left →
      m.args r.argv = some (tokens (trimmed tok))) : r.Lists tok := by
  have hlen : (tokens (trimmed tok)).length < (List.replicate maxArg Ptr.undef).length := by
    rwa [List.length_replicate]
  obtain ⟨block, argv', hparse, hcopy⟩ := (parse_denotes_iff hnul 0 [] [] hlen _).mpr rfl
  refine ⟨block, argv', hparse, fun m hm => ⟨hargs m hm, ?_⟩⟩
  rw [hcopy [block] rfl, hargs m hm]

/-! ## All rounds -/

/-- One round for each field, in order. -/
theorem rounds_fields {d : Byte} (parses : Bool) (pre post : Str) {u : Str} (argv : PtrArr)
    (hu : NUL ∉ u) (ha : argv.length = maxArg)
    (hroom : parses = true → ∀ f ∈ fields d u, (tokens (trimmed f)).length < maxArg) :
    ∃ rs, Rounds d parses (pre ++ (u ++ NUL :: post)) pre.length argv rs ∧
      List.Forall₂ (fun r f => r.Takes f ∧ (parses = true → r.Lists f)) rs (fields d u) := by
  induction hn : u.length using Nat.strong_induction_on generalizing pre u argv with
  | _ n ih =>
  cases hfu : fields d u with
  | nil => exact ⟨[], .done (strtok_none hu hfu), .nil⟩
  | cons tok fs =>
      obtain ⟨lead, lead', k, z, u', v, hstrtok, htrim, hlen, hz, hfs, htok, hne, hu', hlt⟩ :=
        cut_field pre post hu hfu
      have hnul : NUL ∉ trimmed tok := fun hm => htok (trimmed_subset hm)
      -- where the next round starts, with `w` in the place of the trimmed field
      have hnext : ∀ w : Str, w.length = (trimmed tok).length → ∃ pre',
          pre ++ lead ++ (lead' ++ (w ++ NUL :: (List.replicate k NUL ++ v))) =
            pre' ++ (u' ++ NUL :: post) ∧
          pre'.length = (pre ++ lead).length + tok.length + z.length := by
        intro w hw
        refine ⟨pre ++ lead ++ (lead' ++ (w ++ List.replicate k NUL)) ++ z, ?_, ?_⟩
        · rw [narrowed_eq, hz]
          simp only [List.append_assoc]
        · simp only [List.length_append, List.length_replicate]
          omega
      have hrest : parses = true → ∀ f ∈ fields d u', (tokens (trimmed f)).length < maxArg := by
        intro hp f hf
        exact hroom hp f (hfu ▸ List.mem_cons_of_mem tok (hfs ▸ hf))
      cases parses with
      | false =>
          obtain ⟨pre', hblk, hsaved⟩ := hnext (trimmed tok) rfl
          obtain ⟨rs, hrs, hall⟩ := ih _ (hn ▸ hlt) pre' argv hu' ha hrest rfl
          rw [← hblk, hsaved] at hrs
          rw [hfs] at hall
          refine ⟨⟨_, _, _, _, _, argv⟩ :: rs, .round hstrtok htrim rfl hrs,
            .cons ⟨takes_of_cut htok hne hlen argv rfl, fun h => by cases h⟩ hall⟩
      | true =>
          have hlt' := hroom rfl tok (hfu ▸ List.mem_cons_self)
          have hparse := parse_eq backupBlk (pre ++ lead ++ lead') (trimmed tok)
            (List.replicate k NUL ++ v) argv hnul
          have hcount := congrArg List.length (tokensAt_snd (pre ++ lead ++ lead').length (trimmed tok))
          rw [List.length_map] at hcount
          rw [hcount, if_pos (ha ▸ hlt'), List.append_assoc (pre ++ lead),
            List.append_assoc (pre ++ lead)] at hparse
          obtain ⟨argv', hargv'⟩ : ∃ a, a = entries backupBlk
              (tokensAt (pre ++ lead ++ lead').length (trimmed tok)) ++
              .null :: argv.drop ((tokens (trimmed tok)).length + 1) := ⟨_, rfl⟩
          rw [← hargv'] at hparse
          have ha' : argv'.length = maxArg := by
            rw [hargv', List.length_append, entries, List.length_map, hcount, List.length_cons,
              List.length_drop]
            omega
          obtain ⟨pre', hblk, hsaved⟩ := hnext (zap (trimmed tok)) (zap_length _)
          obtain ⟨rs, hrs, hall⟩ := ih _ (hn ▸ hlt) pre' argv' hu' ha' hrest rfl
          rw [← hblk, hsaved] at hrs
          rw [hfs] at hall
          refine ⟨⟨_, _, _, _, _, argv'⟩ :: rs, .round hstrtok htrim hparse hrs,
            .cons ⟨takes_of_cut htok hne hlen argv' (zap_length _), fun _ => ?_⟩ hall⟩
          refine lists_of_parse hnul hlt' _ ?_
          intro m hm
          rw [hargv']
          refine args_entries (pre ++ lead ++ lead') (List.replicate k NUL ++ v) _ ?_ hnul
          rw [hm, List.append_assoc (pre ++ lead)]

/-! ## The two branches -/

/-- Lists of words, expanded and run one after the other. -/
def runEach : List (List Str) → Prog Unit
  | [] => pure ()
  | ws :: rest => do
      runWords ws
      runEach rest

/-- The loop of the `;` branch makes the rounds, and hands their lists to
`expand_wildcards`. -/
theorem seqLoop_rounds {s : Str} {saved : Nat} {argv : PtrArr} {rs : List Round}
    (h : Rounds ';' true s saved argv rs) {lists : List (List Str)}
    (hlists : List.Forall₂ (fun r ws => ∀ m : Mem, m[backupBlk]? = some r.left →
      m.args r.argv = some ws) rs lists)
    {fuel : Nat} (hf : rs.length < fuel) (line : Str) (heap : Mem) {ex : PtrArr}
    (hex : ex.length = maxArg) :
    Prog.Rel (fun _ _ => True) (seqLoop fuel ⟨line :: s :: heap, argv, ex⟩ saved)
      (runEach lists) := by
  induction h generalizing lists fuel heap ex with
  | done hstrtok =>
      cases hlists
      obtain ⟨fuel, rfl⟩ : ∃ n, fuel = n + 1 := ⟨fuel - 1, by omega⟩
      rw [seqLoop, backupBlk, Mem.onBlock_one, hstrtok]
      exact .ret trivial
  | @round s saved next argv r rs hstrtok htrim hparse hrest ih =>
      cases hlists with
      | cons hargs hlists =>
          obtain ⟨fuel, rfl⟩ : ∃ n, fuel = n + 1 := ⟨fuel - 1, by omega⟩
          rw [List.length_cons] at hf
          rw [if_pos rfl, backupBlk] at hparse
          rw [seqLoop, backupBlk, Mem.onBlock_one, hstrtok]
          simp only [Option.map_some, Prog.lift_some, Prog.ret_bind, Mem.onBlock_one, htrim,
            hparse]
          refine expandExecute_rel (R := fun _ _ => True)
            (f := fun m ex => seqLoop fuel (Locals.mk m r.argv ex) next) (hargs _ rfl) hex
            fun x ex' hex' => ?_
          exact ih hlists (by omega) (heap ++ x) hex'

/-- The loop of the `|` branch makes the rounds, and points `command_array` to copies
of the trimmed fields. -/
theorem splitLoop_rounds {s : Str} {saved : Nat} {argv : PtrArr} {rs : List Round}
    (h : Rounds '|' false s saved argv rs) {cs : List Str}
    (hcs : List.Forall₂ (fun r c => cstrOf (r.narrowed.drop r.command) = some c) rs cs)
    {fuel : Nat} (hf : rs.length < fuel) (line : Str) (heap : Mem) (ps : List Ptr)
    (hroom : ps.length + rs.length < maxArg) :
    ∃ s', splitLoop fuel (line :: s :: heap) saved ps =
      some (line :: s' :: (heap ++ cs.map (· ++ [NUL])),
        ps ++ (List.range cs.length).map fun i => .at (heap.length + 2 + i) 0) := by
  induction h generalizing cs fuel heap ps with
  | @done s s' saved argv hstrtok =>
      cases hcs
      obtain ⟨fuel, rfl⟩ : ∃ n, fuel = n + 1 := ⟨fuel - 1, by omega⟩
      refine ⟨s', ?_⟩
      rw [List.length_nil, Nat.add_zero] at hroom
      rw [splitLoop, backupBlk, Mem.onBlock_one, hstrtok]
      simp [hroom]
  | @round s saved next argv r rs hstrtok htrim hparse hrest ih =>
      cases hcs with
      | @cons _ c _ cs hc hcs =>
          obtain ⟨fuel, rfl⟩ : ∃ n, fuel = n + 1 := ⟨fuel - 1, by omega⟩
          rw [List.length_cons] at hf hroom
          rw [if_neg Bool.false_ne_true, Option.some.injEq, Prod.mk.injEq] at hparse
          have hfuel : rs.length < fuel := by omega
          obtain ⟨s', hs'⟩ := ih hcs hfuel (heap ++ [c ++ [NUL]])
            (ps ++ [.at (heap.length + 2) 0]) (by simp; omega)
          have hcstr : Mem.cstr (line :: r.narrowed :: heap) 1 r.command = some c := hc
          refine ⟨s', ?_⟩
          rw [splitLoop, backupBlk, Mem.onBlock_one, hstrtok]
          simp only [Option.map_some, Option.bind_eq_bind, Option.bind_some, Mem.onBlock_one,
            htrim, hcstr, Mem.strdup, List.cons_append, List.length_cons]
          rw [push_of_lt (by omega), Option.bind_some, hparse.1, hs']
          have hptrs : ∀ i, Ptr.at ((heap ++ [c ++ [NUL]]).length + 2 + i) 0 =
              .at (heap.length + 2 + (i + 1)) 0 := by
            intro i
            rw [List.length_append, List.length_singleton]
            congr 1
            omega
          simp only [hptrs, List.append_assoc, List.map_cons, List.singleton_append,
            List.range_succ_eq_map, List.map_map, Nat.add_zero]
          rfl

/-- On entry to the branches `line_backup` holds the line `t`. The loop of the `;`
branch makes one round for each field of the line, each of which writes only in
its field, and the lists of the rounds are what the branch expands and runs. The
loop of the `|` branch does the same, and the trimmed fields end up in
`command_array`. -/
theorem splits_fields (line : Str) (heap : Mem) {t post : Str} {argv ex : PtrArr}
    (hb : t.length + post.length + 1 = maxLine) (ha : argv.length = maxArg)
    (hex : ex.length = maxArg) (ht : NUL ∉ t) :
    ((∀ f ∈ fields ';' t, (tokens (trimmed f)).length < maxArg) →
      ∃ rs, Rounds ';' true (t ++ NUL :: post) 0 argv rs ∧
        List.Forall₂ (fun r f => r.Takes f ∧ r.Lists f) rs (fields ';' t) ∧
        Prog.Rel (fun _ _ => True) (seqCase (line :: (t ++ NUL :: post) :: heap) argv ex)
          (do runEach ((fields ';' t).map fun f => tokens (trimmed f)); printf prompt)) ∧
    ((fields '|' t).length < maxArg →
      ∃ rs backup', Rounds '|' false (t ++ NUL :: post) 0 argv rs ∧
        List.Forall₂ Round.Takes rs (fields '|' t) ∧
        splitLoop maxLine (line :: (t ++ NUL :: post) :: heap) 0 [] =
          some (line :: backup' :: (heap ++ (fields '|' t).map fun f => trimmed f ++ [NUL]),
            (List.range (fields '|' t).length).map fun i => .at (heap.length + 2 + i) 0)) := by
  have hfuel : ∀ d, (fields d t).length < maxLine := by
    intro d
    have := length_pieces_le (fun b => decide (b = d)) t
    rw [fields]
    omega
  constructor
  · intro hroom
    obtain ⟨rs, hrs, hall⟩ := rounds_fields true [] post argv ht ha fun _ => hroom
    refine ⟨rs, hrs, hall.imp fun r f h => ⟨h.1, h.2 rfl⟩, ?_⟩
    -- what the rounds have parsed is there when `expand_wildcards` looks at it
    have hlists : List.Forall₂ (fun r ws => ∀ m : Mem, m[backupBlk]? = some r.left →
        m.args r.argv = some ws) rs ((fields ';' t).map fun f => tokens (trimmed f)) := by
      rw [List.forall₂_map_right_iff]
      refine hall.imp fun r f h m hm => ?_
      obtain ⟨block, argv', -, hargs⟩ := h.2 rfl
      exact (hargs m hm).1
    refine (seqLoop_rounds hrs hlists ?_ line heap hex).bind fun _ _ _ => printf_rel _ trivial
    rw [hall.length_eq]
    exact hfuel ';'
  · intro hroom
    obtain ⟨rs, hrs, hall⟩ := rounds_fields false [] post argv ht ha fun h => by cases h
    have hcs : List.Forall₂ (fun r c => cstrOf (r.narrowed.drop r.command) = some c) rs
        ((fields '|' t).map trimmed) := by
      rw [List.forall₂_map_right_iff]
      exact hall.imp fun r f h => h.1.trimmed
    have hlt : rs.length < maxLine := hall.length_eq ▸ hfuel '|'
    obtain ⟨backup', hsplit⟩ := splitLoop_rounds hrs hcs hlt line heap []
      (by rw [hall.length_eq]; simpa using hroom)
    rw [List.length_map, List.map_map, List.nil_append] at hsplit
    exact ⟨rs, backup', hrs, hall.imp fun r f h => h.1, hsplit⟩

/-- The line `ls ; wc` is split into its two fields. -/
theorem ls_wc_splits : ∃ rs, Rounds ';' true ("ls ; wc".toList ++ NUL :: List.replicate 4088 NUL) 0
      (List.replicate maxArg .undef) rs ∧
    List.Forall₂ (fun r f => r.Takes f ∧ r.Lists f) rs ["ls ".toList, " wc".toList] := by
  have hfields : fields ';' "ls ; wc".toList = ["ls ".toList, " wc".toList] := by decide
  obtain ⟨post, hpost, hb⟩ : ∃ post : Str, post = List.replicate 4088 NUL ∧
      "ls ; wc".toList.length + post.length + 1 = maxLine :=
    ⟨_, rfl, by rw [List.length_replicate]; rfl⟩
  have ha : (List.replicate maxArg Ptr.undef).length = maxArg := List.length_replicate
  have hnul : NUL ∉ "ls ; wc".toList := by decide
  have hsplits := (splits_fields [] [] hb ha ha hnul).1
  rw [hfields, hpost] at hsplits
  obtain ⟨rs, hrs, hall, -⟩ := hsplits (by decide)
  exact ⟨rs, hrs, hall⟩

end UnixSys.Shell
