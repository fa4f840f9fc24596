import UnixSys.Shell.Source
import UnixSys.Lib.Pieces

/-!
# Tokens — what `parse` makes of a line

`words s` is the list of words of `s`. `tokens s` is the argument list that
`parse` leaves behind: the words, and one empty argument more when `s` ends in
a blank, because `parse` records an argument before it looks for its first
character. `parse_eq` is the whole effect of `parse` on a block and on `argv`.
-/

namespace UnixSys.Shell

/-- The maximal runs of characters other than space, tab and newline. -/
def words (s : Str) : List Str := pieces isBlank s

def endsBlank (s : Str) : Bool := s.getLast?.any isBlank

def tokens (s : Str) : List Str := words s ++ if endsBlank s then [[]] else []

theorem isBlank_NUL : isBlank NUL = false := by decide

@[simp] theorem words_nil : words [] = [] := pieces_nil isBlank

@[simp] theorem endsBlank_nil : endsBlank [] = false := rfl

@[simp] theorem tokens_nil : tokens [] = [] := by simp [tokens]

theorem mem_of_mem_tokens {s word : Str} {b : Byte} (hword : word ∈ tokens s) (hb : b ∈ word) :
    b ∈ s := by
  rcases List.mem_append.mp hword with h | h
  · have hflat : b ∈ (words s).flatten := List.mem_flatten.mpr ⟨word, h, hb⟩
    rw [words, flatten_pieces] at hflat
    exact List.mem_of_mem_filter hflat
  · split at h
    · rw [List.mem_singleton.mp h] at hb
      cases hb
    · cases h

theorem length_le_of_mem_tokens {s word : Str} (hword : word ∈ tokens s) :
    word.length ≤ s.length := by
  rcases List.mem_append.mp hword with h | h
  · have hle := (List.sublist_flatten_of_mem h).length_le
    rw [words, flatten_pieces] at hle
    exact hle.trans (List.length_filter_le _ s)
  · split at h
    · rw [List.mem_singleton.mp h]
      exact Nat.zero_le _
    · cases h

theorem exists_word_of_mem {s : Str} {b : Byte} (hb : b ∈ s) (hblank : isBlank b = false) :
    ∃ word ∈ words s, b ∈ word := by
  have hfilter : b ∈ s.filter (!isBlank ·) := List.mem_filter.mpr ⟨hb, by simp [hblank]⟩
  rw [← flatten_pieces] at hfilter
  exact List.mem_flatten.mp hfilter

/-! ## The tokens with their positions -/

/-- The tokens of `s` with the offsets at which `parse` finds them, `s` lying at
offset `o`. -/
def tokensAt (o : Nat) (s : Str) : List (Nat × Str) :=
  match s with
  | [] => []
  | c :: t =>
      let b := ((c :: t).takeWhile isBlank).length
      let r := (c :: t).dropWhile isBlank
      let w := r.takeWhile (!isBlank ·)
      (o + b, w) :: tokensAt (o + b + w.length) (r.dropWhile (!isBlank ·))
termination_by s.length
decreasing_by
  simp only [List.length_cons]
  by_cases hc : isBlank c = true
  · have h1 := (List.dropWhile_suffix (!isBlank ·) (l := t.dropWhile isBlank)).length_le
    have h2 := (List.dropWhile_suffix isBlank (l := t)).length_le
    simp only [List.dropWhile_cons_of_pos hc]
    omega
  · have h1 := (List.dropWhile_suffix (!isBlank ·) (l := t)).length_le
    simp only [List.dropWhile_cons_of_neg hc]
    simp only [hc, Bool.not_false, List.dropWhile_cons_of_pos]
    omega

/-- `s` as a run of blanks, a word and the rest. -/
theorem cut_eq (s : Str) :
    s.takeWhile isBlank ++ ((s.dropWhile isBlank).takeWhile (!isBlank ·) ++
      (s.dropWhile isBlank).dropWhile (!isBlank ·)) = s := by
  rw [List.takeWhile_append_dropWhile, List.takeWhile_append_dropWhile]

theorem rest_length_lt {s : Str} (hs : s ≠ []) :
    ((s.dropWhile isBlank).dropWhile (!isBlank ·)).length < s.length := by
  have hlen := congrArg List.length (cut_eq s)
  simp only [List.length_append] at hlen
  cases s with
  | nil => exact absurd rfl hs
  | cons c t =>
      by_cases hc : isBlank c = true
      · rw [List.takeWhile_cons_of_pos hc] at hlen
        simp only [List.length_cons] at hlen ⊢
        omega
      · rw [List.dropWhile_cons_of_neg hc] at hlen ⊢
        rw [List.takeWhile_cons_of_neg hc,
          List.takeWhile_cons_of_pos (p := (!isBlank ·)) (by simpa using hc)] at hlen
        simp only [List.length_cons] at hlen ⊢
        omega

theorem tokensAt_of_ne_nil (o : Nat) {s : Str} (hs : s ≠ []) :
    tokensAt o s =
      (o + (s.takeWhile isBlank).length, (s.dropWhile isBlank).takeWhile (!isBlank ·)) ::
      tokensAt (o + (s.takeWhile isBlank).length +
        ((s.dropWhile isBlank).takeWhile (!isBlank ·)).length)
        ((s.dropWhile isBlank).dropWhile (!isBlank ·)) := by
  cases s with
  | nil => exact absurd rfl hs
  | cons c t => rw [tokensAt]

/-- The rest after a word is empty or starts with a blank. -/
theorem rest_head (s : Str) : (s.dropWhile (!isBlank ·)) = [] ∨
    ∃ c r, s.dropWhile (!isBlank ·) = c :: r ∧ isBlank c = true := by
  cases h : s.dropWhile (!isBlank ·) with
  | nil => exact .inl rfl
  | cons c r =>
      refine .inr ⟨c, r, rfl, ?_⟩
      have := List.head_dropWhile_not (p := (!isBlank ·)) (l := s) (by simp [h])
      simpa [h] using this

theorem words_of_ne_nil {s : Str} (hs : s.dropWhile isBlank ≠ []) :
    words s = (s.dropWhile isBlank).takeWhile (!isBlank ·) ::
      words ((s.dropWhile isBlank).dropWhile (!isBlank ·)) := by
  rw [words, ← pieces_dropWhile]
  cases h : s.dropWhile isBlank with
  | nil => exact absurd h hs
  | cons c t =>
      have := List.head_dropWhile_not (p := isBlank) (l := s) hs
      rw [pieces_cons_not_sep isBlank t (by simpa [h] using this)]
      rfl

theorem endsBlank_append {s t : Str} (ht : t ≠ []) : endsBlank (s ++ t) = endsBlank t := by
  simp [endsBlank, List.getLast?_append, List.getLast?_eq_some_getLast ht]

theorem tokensAt_snd (o : Nat) (s : Str) : (tokensAt o s).map Prod.snd = tokens s := by
  induction hn : s.length using Nat.strong_induction_on generalizing o s with
  | _ n ih =>
      by_cases hs : s = []
      · subst hs
        simp [tokensAt, tokens, words, endsBlank]
      rw [tokensAt_of_ne_nil o hs, List.map_cons,
        ih _ (hn ▸ rest_length_lt hs) _ _ rfl]
      by_cases hd : s.dropWhile isBlank = []
      · -- all blanks: no word, one empty token
        have hall : ∀ c ∈ s, isBlank c = true := List.dropWhile_eq_nil_iff.mp hd
        have hw : words s = [] := (pieces_eq_nil_iff isBlank).mpr hall
        have he : endsBlank s = true := by
          simp [endsBlank, List.getLast?_eq_some_getLast hs, hall _ (List.getLast_mem hs)]
        simp [hd, tokens, hw, he]
      · rw [tokens, tokens, words_of_ne_nil hd, List.cons_append]
        congr 2
        conv_rhs => rw [← cut_eq s]
        have hne : (s.dropWhile isBlank).takeWhile (!isBlank ·) ++
            (s.dropWhile isBlank).dropWhile (!isBlank ·) ≠ [] := by
          rwa [List.takeWhile_append_dropWhile]
        rw [endsBlank_append hne]
        rcases rest_head (s.dropWhile isBlank) with hr | ⟨c, r, hr, -⟩
        · -- the line ends with the word itself
          rw [hr, List.append_nil] at hne ⊢
          have := List.mem_takeWhile_imp (List.getLast_mem hne)
          simp only [endsBlank, List.getLast?_eq_some_getLast hne]
          simp_all
        · rw [endsBlank_append (by simp [hr])]

/-! ## The loops of parse -/

/-- What `parse` leaves of a string: its blanks are NULs. -/
def zap (s : Str) : Str := s.map fun c => if isBlank c then NUL else c

@[simp] theorem zap_length (s : Str) : (zap s).length = s.length := by simp [zap]

theorem zap_append (s t : Str) : zap (s ++ t) = zap s ++ zap t := by simp [zap]

theorem zap_of_forall {s : Str} (h : ∀ c ∈ s, isBlank c = false) : zap s = s := by
  induction s with
  | nil => rfl
  | cons c s ih =>
      simp only [zap, List.map_cons, h c (by simp)] at ih ⊢
      rw [ih fun d hd => h d (by simp [hd])]
      rfl

theorem getElem?_at (pre : Str) (c : Byte) (r : Str) : (pre ++ c :: r)[pre.length]? = some c := by
  simp

theorem set_at (pre : Str) (c d : Byte) (r : Str) :
    (pre ++ c :: r).set pre.length d = pre ++ d :: r := by
  simp

theorem blankOut_eq (fuel : Nat) (pre t post : Str) (hf : t.length < fuel) :
    blankOut fuel (pre ++ (t ++ NUL :: post)) pre.length =
      some (pre ++ zap (t.takeWhile isBlank) ++ (t.dropWhile isBlank ++ NUL :: post),
        pre.length + (t.takeWhile isBlank).length) := by
  induction t generalizing fuel pre with
  | nil =>
      obtain ⟨n, rfl⟩ := Nat.exists_eq_succ_of_ne_zero (Nat.ne_of_gt hf)
      simp [blankOut, isBlank_NUL, zap]
  | cons c t ih =>
      obtain ⟨n, rfl⟩ : ∃ n, fuel = n + 1 := ⟨fuel - 1, by simp at hf; omega⟩
      rw [blankOut, List.cons_append, getElem?_at]
      by_cases hc : isBlank c = true
      · have := ih n (pre ++ [NUL]) (by simpa using hf)
        simp only [List.append_assoc, List.singleton_append, List.length_append,
          List.length_singleton] at this
        simp only [Option.bind_eq_bind, Option.bind_some, hc, if_true, set_at, this,
          List.takeWhile_cons_of_pos, List.dropWhile_cons_of_pos, zap, List.map_cons,
          List.length_cons, List.append_assoc, List.cons_append]
        rw [Nat.add_assoc, Nat.add_comm 1]
      · simp [hc, zap]

theorem skipWord_eq (fuel : Nat) (pre t post : Str) (hf : t.length < fuel) (ht : NUL ∉ t) :
    skipWord fuel (pre ++ (t ++ NUL :: post)) pre.length =
      some (pre.length + (t.takeWhile (!isBlank ·)).length) := by
  induction t generalizing fuel pre with
  | nil =>
      obtain ⟨n, rfl⟩ := Nat.exists_eq_succ_of_ne_zero (Nat.ne_of_gt hf)
      simp [skipWord]
  | cons c t ih =>
      obtain ⟨n, rfl⟩ : ∃ n, fuel = n + 1 := ⟨fuel - 1, by simp at hf; omega⟩
      rw [skipWord, List.cons_append, getElem?_at]
      have hne : c ≠ NUL := fun he => ht (he ▸ by simp)
      by_cases hc : isBlank c = true
      · simp [hc]
      · have := ih n (pre ++ [c]) (by simpa using hf) (fun hm => ht (by simp [hm]))
        simp only [List.append_assoc, List.singleton_append, List.length_append,
          List.length_singleton] at this
        simp only [Bool.not_eq_true] at hc
        simp [hc, hne, this, Nat.add_assoc, Nat.add_comm 1]

/-- The entries `parse` stores for the tokens `ts` of block `b`. -/
def entries (b : Nat) (ts : List (Nat × Str)) : List Ptr := ts.map fun t => .at b t.1

theorem take_stored (a : PtrArr) (k : Nat) (p : Ptr) (h : k < a.length) :
    (a.take k ++ p :: a.drop (k + 1)).take (k + 1) = a.take k ++ [p] := by
  have hk : (a.take k).length = k := by simp; omega
  rw [List.take_append, List.take_of_length_le (by omega), hk, Nat.add_sub_cancel_left]
  rfl

theorem drop_stored (a : PtrArr) (k n : Nat) (p : Ptr) (h : k < a.length) :
    (a.take k ++ p :: a.drop (k + 1)).drop (k + 1 + n) = a.drop (k + 1 + n) := by
  have hk : (a.take k).length = k := by simp; omega
  rw [List.drop_append, hk, List.drop_eq_nil_of_le (by omega),
    show k + 1 + n - k = n + 1 by omega]
  simp

theorem store_eq (argv : PtrArr) (k : Nat) (p : Ptr) :
    PtrArr.store argv k p =
      if k < argv.length then some (argv.take k ++ p :: argv.drop (k + 1)) else none := by
  by_cases h : k < argv.length
  · rw [PtrArr.store_of_lt h, if_pos h, List.set_eq_take_append_cons_drop, if_pos h]
  · rw [PtrArr.store_of_ge (by omega), if_neg h]

/-- One round of the outer loop: it blanks out `t`'s leading blanks, records
the word after them and stops at the rest. -/
theorem parseLoop_round (b fuel : Nat) (pre t post : Str) (argv : PtrArr) (k : Nat)
    (hnil : t ≠ []) (ht : NUL ∉ t) {w r : Str}
    (hw : w = (t.dropWhile isBlank).takeWhile (!isBlank ·))
    (hr : r = (t.dropWhile isBlank).dropWhile (!isBlank ·)) :
    parseLoop b (fuel + 1) (pre ++ (t ++ NUL :: post)) pre.length argv k =
      (PtrArr.store argv k (.at b (pre.length + (t.takeWhile isBlank).length))).bind fun argv =>
        parseLoop b fuel (pre ++ zap (t.takeWhile isBlank) ++ w ++ (r ++ NUL :: post))
          (pre ++ zap (t.takeWhile isBlank) ++ w).length argv (k + 1) := by
  have hwr : t.dropWhile isBlank = w ++ r := by
    rw [hw, hr, List.takeWhile_append_dropWhile]
  have hnul : NUL ∉ w ++ r := by
    intro hm
    refine ht ?_
    rw [← List.takeWhile_append_dropWhile (p := isBlank) (l := t), hwr]
    exact List.mem_append_right _ hm
  have hblank := blankOut_eq ((pre ++ (t ++ NUL :: post)).length + 1) pre t post
    (by simp; omega)
  have hskip := skipWord_eq
    ((pre ++ zap (t.takeWhile isBlank) ++ (w ++ r ++ NUL :: post)).length + 1)
    (pre ++ zap (t.takeWhile isBlank)) (w ++ r) post (by simp; omega) hnul
  rw [hwr] at hblank
  rw [← hwr, ← hw, hwr] at hskip
  -- the first character is not the NUL, so the body of the loop runs
  have hhead : ∃ c, (pre ++ (t ++ NUL :: post))[pre.length]? = some c ∧ c ≠ NUL := by
    obtain ⟨c, t', rfl⟩ := List.exists_cons_of_ne_nil hnil
    exact ⟨c, by simp, fun he => ht (by simp [he])⟩
  obtain ⟨c, hget, hc⟩ := hhead
  have hoff : (pre ++ zap (t.takeWhile isBlank)).length =
      pre.length + (t.takeWhile isBlank).length := by simp
  have hend : (pre ++ zap (t.takeWhile isBlank) ++ w).length =
      pre.length + (t.takeWhile isBlank).length + w.length := by simp; omega
  rw [hoff] at hskip
  rw [parseLoop, hget, hend]
  simp only [Option.bind_eq_bind, Option.bind_some, hc, if_false]
  rw [hblank]
  simp only [Option.bind_some]
  rw [hskip]
  simp only [Option.bind_some, List.append_assoc]

/-- The outer loop on a block that holds `pre`, the string `t` and `post`. The
induction is on the length of `t`: each round leaves the rest after one word. -/
theorem parseLoop_eq (b fuel : Nat) (pre t post : Str) (argv : PtrArr) (k : Nat)
    (hf : t.length < fuel) (ht : NUL ∉ t) :
    parseLoop b fuel (pre ++ (t ++ NUL :: post)) pre.length argv k =
      if k + (tokensAt pre.length t).length < argv.length then
        some (pre ++ (zap t ++ NUL :: post),
          argv.take k ++ entries b (tokensAt pre.length t) ++
            .null :: argv.drop (k + (tokensAt pre.length t).length + 1))
      else none := by
  induction hn : t.length using Nat.strong_induction_on generalizing fuel pre t argv k with
  | _ n ih =>
  obtain ⟨fuel, rfl⟩ : ∃ m, fuel = m + 1 := ⟨fuel - 1, by omega⟩
  by_cases hnil : t = []
  · subst hnil
    rw [parseLoop, List.nil_append, getElem?_at, store_eq]
    simp only [Option.bind_eq_bind, Option.bind_some, if_true, tokensAt, List.length_nil,
      Nat.add_zero, entries, List.map_nil, List.append_nil]
    split <;> simp [zap]
  have hlt := rest_length_lt hnil
  obtain ⟨w, hw⟩ : ∃ w, w = (t.dropWhile isBlank).takeWhile (!isBlank ·) := ⟨_, rfl⟩
  obtain ⟨r, hr⟩ : ∃ r, r = (t.dropWhile isBlank).dropWhile (!isBlank ·) := ⟨_, rfl⟩
  rw [parseLoop_round b fuel pre t post argv k hnil ht hw hr]
  have hcut := cut_eq t
  have htoks := tokensAt_of_ne_nil pre.length hnil
  rw [← hw, ← hr] at hcut htoks
  rw [← hr] at hlt
  have hzw : zap w = w := zap_of_forall (hw ▸ forall_mem_takeWhile_not isBlank _)
  have hzt : zap t = zap (t.takeWhile isBlank) ++ (w ++ zap r) := by
    conv_lhs => rw [← hcut]
    rw [zap_append, zap_append, hzw]
  have hnul : NUL ∉ r := by
    intro hm
    refine ht ?_
    rw [← hcut]
    exact List.mem_append_right _ (List.mem_append_right _ hm)
  rw [store_eq]
  -- the round stores one pointer; the rest of the text is the induction's
  by_cases hk : k < argv.length
  · rw [if_pos hk, Option.bind_some, ih r.length (by omega) fuel _ _ _ _ (by omega) hnul rfl]
    have hoff : (pre ++ zap (t.takeWhile isBlank) ++ w).length =
        pre.length + (t.takeWhile isBlank).length + w.length := by simp; omega
    rw [hoff, htoks, hzt]
    obtain ⟨ts, hts⟩ : ∃ ts, ts = tokensAt (pre.length + (t.takeWhile isBlank).length +
      w.length) r := ⟨_, rfl⟩
    have hlen : (argv.take k ++ Ptr.at b (pre.length + (t.takeWhile isBlank).length) ::
        argv.drop (k + 1)).length = argv.length := by
      simp only [List.length_append, List.length_take, List.length_cons, List.length_drop]
      omega
    rw [hlen, ← hts, List.length_cons, take_stored argv k _ hk,
      Nat.add_assoc (k + 1), drop_stored argv k _ _ hk,
      show k + 1 + ts.length = k + (ts.length + 1) by omega,
      show k + 1 + (ts.length + 1) = k + (ts.length + 1) + 1 by omega]
    simp only [entries, List.map_cons, List.append_assoc, List.cons_append, List.nil_append]
  · rw [if_neg hk, Option.bind_none, if_neg (by omega)]

theorem parse_eq (b : Nat) (pre t post : Str) (argv : PtrArr) (ht : NUL ∉ t) :
    parse b (pre ++ (t ++ NUL :: post)) pre.length argv =
      if (tokensAt pre.length t).length < argv.length then
        some (pre ++ (zap t ++ NUL :: post),
          entries b (tokensAt pre.length t) ++
            .null :: argv.drop ((tokensAt pre.length t).length + 1))
      else none := by
  rw [parse, parseLoop_eq b _ pre t post argv 0 (by simp; omega) ht]
  simp

/-- The blanked-out rest after a word starts with a NUL. -/
theorem zap_rest (s post : Str) : ∃ r,
    zap (s.dropWhile (!isBlank ·)) ++ NUL :: post = NUL :: r := by
  rcases rest_head s with h | ⟨c, r, h, hc⟩
  · exact ⟨post, by simp [h, zap]⟩
  · exact ⟨zap r ++ NUL :: post, by simp [h, zap, hc]⟩

/-- The entries that `parse` stores denote the tokens of the string it parsed. -/
theorem args_entries {m : Mem} {b : Nat} (pre post : Str) {t : Str} (a : PtrArr)
    (hb : m[b]? = some (pre ++ (zap t ++ NUL :: post))) (ht : NUL ∉ t) :
    m.args (entries b (tokensAt pre.length t) ++ .null :: a) = some (tokens t) := by
  rw [← tokensAt_snd pre.length t]
  induction hn : t.length using Nat.strong_induction_on generalizing pre t with
  | _ n ih =>
  by_cases hnil : t = []
  · subst hnil
    simp [tokensAt, entries]
  have hlt := rest_length_lt hnil
  obtain ⟨w, hw⟩ : ∃ w, w = (t.dropWhile isBlank).takeWhile (!isBlank ·) := ⟨_, rfl⟩
  obtain ⟨r, hr⟩ : ∃ r, r = (t.dropWhile isBlank).dropWhile (!isBlank ·) := ⟨_, rfl⟩
  obtain ⟨x, hx⟩ := zap_rest (t.dropWhile isBlank) post
  have hcut := cut_eq t
  have htoks := tokensAt_of_ne_nil pre.length hnil
  rw [← hw, ← hr] at hcut htoks
  rw [← hr] at hlt hx
  have hzw : zap w = w := zap_of_forall (hw ▸ forall_mem_takeWhile_not isBlank _)
  have hnulw : NUL ∉ w := by
    intro hm
    refine ht ?_
    rw [← hcut]
    exact List.mem_append_right _ (List.mem_append_left _ hm)
  have hnulr : NUL ∉ r := by
    intro hm
    refine ht ?_
    rw [← hcut]
    exact List.mem_append_right _ (List.mem_append_right _ hm)
  -- the words are left as they are, and a NUL stands behind each
  have hblk : m[b]? = some (pre ++ zap (t.takeWhile isBlank) ++ w ++ (zap r ++ NUL :: post)) := by
    rw [hb]
    conv_lhs => rw [← hcut]
    rw [zap_append, zap_append, hzw]
    simp only [List.append_assoc]
  have hoff : (pre ++ zap (t.takeWhile isBlank)).length =
      pre.length + (t.takeWhile isBlank).length := by simp
  have hend : (pre ++ zap (t.takeWhile isBlank) ++ w).length =
      pre.length + (t.takeWhile isBlank).length + w.length := by simp; omega
  have hword : m.cstr b (pre.length + (t.takeWhile isBlank).length) = some w := by
    rw [← hoff]
    exact Mem.cstr_of_block (by rw [hblk, hx]) hnulw
  have hrest := ih r.length (by omega) _ hblk hnulr rfl
  rw [hend] at hrest
  rw [htoks]
  exact Mem.args_cons hword hrest

/-! ## Word splitting -/

/-- With room in `argv`, `parse` returns, and the list that `argv` then denotes is
the list of the tokens. -/
theorem parse_denotes_iff {s : Str} (hs : NUL ∉ s) (b : Nat) (pre post : Str) {argv : PtrArr}
    (hroom : (tokens s).length < argv.length) (ws : List Str) :
    (∃ block argv', parse b (pre ++ (s ++ NUL :: post)) pre.length argv = some (block, argv') ∧
      ∀ m : Mem, m[b]? = some block → m.args argv' = some ws) ↔ tokens s = ws := by
  have hparse := parse_eq b pre s post argv hs
  have hlen := congrArg List.length (tokensAt_snd pre.length s)
  rw [List.length_map] at hlen
  rw [hlen, if_pos hroom] at hparse
  constructor
  · intro h
    obtain ⟨block, argv', hblock, hargs⟩ := h
    rw [hparse] at hblock
    obtain ⟨rfl, rfl⟩ : _ = block ∧ _ = argv' := Prod.mk.inj (Option.some.inj hblock)
    -- a memory that holds the block
    have hget : (List.replicate b [] ++ [pre ++ (zap s ++ NUL :: post)])[b]? =
        some (pre ++ (zap s ++ NUL :: post)) := by
      simp
    have htokens := args_entries pre post (argv.drop ((tokens s).length + 1)) hget hs
    exact Option.some.inj (htokens.symm.trans (hargs _ hget))
  · intro h
    rw [← h]
    exact ⟨_, _, hparse, fun m hget => args_entries pre post _ hget hs⟩

theorem tokens_eq_words_iff (s : Str) : tokens s = words s ↔ endsBlank s = false := by
  rw [tokens]
  cases endsBlank s with
  | false => simp
  | true => simp

/-- With room in `argv`, `parse` returns, and it has split the string into its words
exactly when no blank ends the string; otherwise there is an empty one more. -/
theorem parse_words_iff {s : Str} (hs : NUL ∉ s) (b : Nat) (pre post : Str) {argv : PtrArr}
    (hroom : (tokens s).length < argv.length) :
    (∃ block argv', parse b (pre ++ (s ++ NUL :: post)) pre.length argv = some (block, argv') ∧
      ∀ m : Mem, m[b]? = some block → m.args argv' = some (words s)) ↔
    endsBlank s = false :=
  (parse_denotes_iff hs b pre post hroom (words s)).trans (tokens_eq_words_iff s)

/-- `ls -l` has two words. -/
theorem ls_l_words : ∃ block argv', parse 0 ([] ++ ("ls -l".toList ++ [NUL])) 0
    (List.replicate 64 .undef) = some (block, argv') ∧
      ∀ m : Mem, m[0]? = some block → m.args argv' = some (words "ls -l".toList) := by
  have hnul : NUL ∉ "ls -l".toList := by decide
  have hroom : (tokens "ls -l".toList).length < (List.replicate 64 Ptr.undef).length := by decide
  exact (parse_words_iff hnul 0 [] [] hroom).mpr (by decide)

/-- Of `ls` and a space `parse` makes two words, the second one empty. -/
theorem ls_space_words : ¬ ∃ block argv', parse 0 ([] ++ ("ls ".toList ++ [NUL])) 0
    (List.replicate 64 .undef) = some (block, argv') ∧
      ∀ m : Mem, m[0]? = some block → m.args argv' = some (words "ls ".toList) := by
  have hnul : NUL ∉ "ls ".toList := by decide
  have hroom : (tokens "ls ".toList).length < (List.replicate 64 Ptr.undef).length := by decide
  intro h
  exact absurd ((parse_denotes_iff hnul 0 [] [] hroom _).mp h) (by decide)

end UnixSys.Shell
