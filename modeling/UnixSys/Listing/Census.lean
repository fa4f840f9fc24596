import UnixSys.Lib.Census
import UnixSys.Listing.Source

/-!
# Census — the counts of `ls2`

After each round every counter is the number of the entries so far of its kind, and
`totalCount` the number of all of them. The report leaves out the counter of the FIFOs, and
an entry whose `lstat` fails is of no kind: without these two the printed counts add up to
the printed total (`accounts_iff`).
-/

namespace UnixSys.Listing

/-! ## Kinds -/

/-- The counters that an entry can be counted in. -/
inductive Kind where
  | reg
  | dir
  | chr
  | blk
  | fifo
  | lnk
  | sock
  | other
  deriving DecidableEq

/-- The kind of a mode, tested as in `classify`. -/
def kindOf (mode : Mode) : Kind :=
  if isReg mode then .reg
  else if isDir mode then .dir
  else if isChr mode then .chr
  else if isBlk mode then .blk
  else if isFifo mode then .fifo
  else if isLnk mode then .lnk
  else if isSock mode then .sock
  else .other

/-- The kind of an entry; it has none when `lstat` fails. -/
def Entry.kind (e : Entry) : Option Kind :=
  match e.lstat with
  | .error _ => none
  | .ok mode => some (kindOf mode)

theorem Entry.kind_error {e : Entry} {errno : Errno} (h : e.lstat = .error errno) :
    e.kind = none := by
  rw [Entry.kind, h]

theorem Entry.kind_ok {e : Entry} {mode : Mode} (h : e.lstat = .ok mode) :
    e.kind = some (kindOf mode) := by
  rw [Entry.kind, h]

/-- The counter of a kind. -/
def Counts.of (c : Counts) : Kind → Counter
  | .reg => c.regCount
  | .dir => c.dirCount
  | .chr => c.charCount
  | .blk => c.blockCount
  | .fifo => c.fifoCount
  | .lnk => c.symlCount
  | .sock => c.socCount
  | .other => c.otherCount

/-- One more of a kind. -/
def Counts.count (c : Counts) : Kind → Option Counts
  | .reg => do return { c with regCount := ← c.regCount.incr }
  | .dir => do return { c with dirCount := ← c.dirCount.incr }
  | .chr => do return { c with charCount := ← c.charCount.incr }
  | .blk => do return { c with blockCount := ← c.blockCount.incr }
  | .fifo => do return { c with fifoCount := ← c.fifoCount.incr }
  | .lnk => do return { c with symlCount := ← c.symlCount.incr }
  | .sock => do return { c with socCount := ← c.socCount.incr }
  | .other => do return { c with otherCount := ← c.otherCount.incr }

/-- The chain of tests counts the kind of the mode. -/
theorem classify_eq (mode : Mode) (c : Counts) : classify mode c = c.count (kindOf mode) := by
  unfold classify kindOf
  iterate 7 rw [apply_ite c.count]
  rfl

@[simp] theorem of_total (c : Counts) (n : Counter) (k : Kind) :
    Counts.of { c with totalCount := n } k = c.of k := by
  cases k <;> rfl

/-- A mode has one type. -/
theorem isType_of_isType {type type' mode : Mode} (h : isType type mode = true) :
    isType type' mode = decide (type = type') := by
  simp only [isType, decide_eq_true_eq] at h ⊢
  rw [h]

/-- The type bits of a kind, if it has some. -/
def Kind.type : Kind → Option Mode
  | .reg => some 0o100000
  | .dir => some 0o040000
  | .chr => some 0o020000
  | .blk => some 0o060000
  | .fifo => some 0o010000
  | .lnk => some 0o120000
  | .sock => some 0o140000
  | .other => none

theorem kindOf_eq_iff {k : Kind} {type mode : Mode} (hk : k.type = some type) :
    kindOf mode = k ↔ isType type mode = true := by
  constructor
  · rintro rfl
    unfold kindOf at hk
    split_ifs at hk with hreg hdir hchr hblk hfifo hlnk hsock
    all_goals cases hk
    all_goals assumption
  · intro h
    have hother : ∀ type', isType type' mode = decide (type = type') :=
      fun type' => isType_of_isType h
    cases k with
    | other => cases hk
    | _ =>
        cases hk
        simp [kindOf, isReg, isDir, isChr, isBlk, isFifo, isLnk, isSock, hother]

/-! ## One round -/

theorem incr_of_le {n : Counter} (h : n.val + 1 ≤ intMax) : n.incr = some ⟨n.val + 1, h⟩ :=
  dif_pos h

theorem incr_of_gt {n : Counter} (h : intMax < n.val + 1) : n.incr = none :=
  dif_neg (Nat.not_le.mpr h)

/-- A kind is counted in its counter, and in no other. -/
theorem count_counts {c : Counts} {k : Kind} (h : (c.of k).val + 1 ≤ intMax) :
    ∃ c', c.count k = some c' ∧ c'.totalCount = c.totalCount ∧
      ∀ j, (c'.of j).val = (c.of j).val + if j = k then 1 else 0 := by
  cases k
  all_goals
    simp only [Counts.of] at h
    simp only [Counts.count, incr_of_le h]
    refine ⟨_, rfl, rfl, fun j => ?_⟩
    cases j <;> rfl

/-- What the counters are after these entries. -/
structure Counted (c : Counts) (es : List Entry) : Prop where
  total : c.totalCount.val = es.length
  each : ∀ k, (c.of k).val = census Entry.kind es k

theorem Counted.start : Counted State.start.counts [] := by
  refine ⟨rfl, fun k => ?_⟩
  cases k <;> rfl

section
variable (sys : System) {s : State} {e : Entry} (hle : s.counts.totalCount.val + 1 ≤ intMax)
include hle

/-- A round that ends at the `continue`. -/
theorem body_error {errno : Errno} (hlstat : e.lstat = .error errno) :
    ∃ stderr, body sys s e = some ⟨{ s.counts with totalCount := ⟨_, hle⟩ }, stderr⟩ := by
  unfold body
  rw [incr_of_le hle, hlstat]
  exact ⟨_, rfl⟩

/-- A round that comes to the tests. -/
theorem body_ok {mode : Mode} (hlstat : e.lstat = .ok mode) : ∃ stderr, body sys s e =
    (Counts.count { s.counts with totalCount := ⟨_, hle⟩ } (kindOf mode)).bind fun c =>
      some ⟨c, stderr⟩ := by
  unfold body
  rw [incr_of_le hle, hlstat, ← classify_eq]
  exact ⟨_, rfl⟩

end

variable (sys : System) {s : State} {e : Entry} {es done : List Entry}

/-- One round keeps the counts, as long as there is room for one entry more. -/
theorem body_counted (h : Counted s.counts done) (hle : done.length + 1 ≤ intMax) :
    ∃ s', body sys s e = some s' ∧ Counted s'.counts (done ++ [e]) := by
  have htotal : s.counts.totalCount.val + 1 ≤ intMax := h.total ▸ hle
  have hlen : s.counts.totalCount.val + 1 = (done ++ [e]).length := by
    rw [h.total, List.length_append, List.length_singleton]
  cases hlstat : e.lstat with
  | error errno =>
      obtain ⟨stderr, hbody⟩ := body_error sys htotal hlstat
      refine ⟨_, hbody, hlen, fun k => ?_⟩
      rw [of_total, census_concat, Entry.kind_error hlstat, if_neg (Option.some_ne_none k).symm]
      exact h.each k
  | ok mode =>
      obtain ⟨stderr, hbody⟩ := body_ok sys htotal hlstat
      have hmany := census_le_length Entry.kind done (kindOf mode)
      have hroom : (s.counts.of (kindOf mode)).val + 1 ≤ intMax := by
        rw [h.each]
        omega
      rw [← of_total s.counts ⟨_, htotal⟩] at hroom
      obtain ⟨c', hcount, htotal', hof⟩ := count_counts hroom
      rw [hcount] at hbody
      refine ⟨_, hbody, ?_, fun k => ?_⟩
      · rw [htotal']
        exact hlen
      · rw [hof, of_total, h.each, census_concat, Entry.kind_ok hlstat]
        simp [eq_comm]

/-- The round after `INT_MAX` entries is undefined. -/
theorem body_overflows (h : Counted s.counts done) (hgt : intMax < done.length + 1) :
    body sys s e = none := by
  unfold body
  rw [incr_of_gt (h.total ▸ hgt)]
  rfl

/-! ## The whole loop -/

theorem loop_counted (h : Counted s.counts done) (hle : done.length + es.length ≤ intMax) :
    ∃ s', loop sys es s = some s' ∧ Counted s'.counts (done ++ es) := by
  induction es generalizing s done with
  | nil => exact ⟨s, rfl, by rwa [List.append_nil]⟩
  | cons e es ih =>
      rw [List.length_cons] at hle
      obtain ⟨s₁, hbody, hs₁⟩ := body_counted sys (e := e) h (by omega)
      obtain ⟨s₂, hloop, hs₂⟩ := ih hs₁ (by
        rw [List.length_append, List.length_singleton]
        omega)
      refine ⟨s₂, ?_, by rwa [List.append_assoc] at hs₂⟩
      rw [loop, hbody]
      exact hloop

theorem loop_overflows (h : Counted s.counts done) (hgt : intMax < done.length + es.length) :
    loop sys es s = none := by
  have hdone : done.length ≤ intMax := h.total ▸ s.counts.totalCount.le
  induction es generalizing s done with
  | nil =>
      rw [List.length_nil] at hgt
      omega
  | cons e es ih =>
      rw [List.length_cons] at hgt
      rw [loop]
      by_cases hle : done.length + 1 ≤ intMax
      · obtain ⟨s₁, hbody, hs₁⟩ := body_counted sys (e := e) h hle
        have hlen : (done ++ [e]).length = done.length + 1 := by simp
        rw [hbody]
        exact ih hs₁ (by omega) (by omega)
      · rw [body_overflows sys h (by omega)]
        rfl

/-! ## The report -/

/-- The kinds that are printed, in the order of the report. -/
def printed : List Kind := [.reg, .dir, .chr, .blk, .lnk, .sock, .other]

theorem printed_nodup : printed.Nodup := by decide

theorem mem_printed_iff (k : Kind) : k ∈ printed ↔ k ≠ .fifo := by
  cases k <;> decide

theorem report_counts (dir : Str) (c : Counts) :
    (report dir c).categories.map (fun line => line.2.val) =
      printed.map fun k => (c.of k).val := rfl

/-- The entries that are counted in one of the printed categories. -/
theorem kind_printed_iff (e : Entry) : (∃ k ∈ printed, e.kind = some k) ↔
    ∃ mode, e.lstat = .ok mode ∧ isFifo mode = false := by
  cases hlstat : e.lstat with
  | error errno => simp [Entry.kind_error hlstat]
  | ok mode =>
      have hkind := Entry.kind_ok hlstat
      have hfifo : kindOf mode ∈ printed ↔ isFifo mode = false := by
        rw [mem_printed_iff, Ne, kindOf_eq_iff rfl, ← isFifo, Bool.not_eq_true]
      constructor
      · rintro ⟨k, hk, hsome⟩
        rw [hkind] at hsome
        cases hsome
        exact ⟨mode, rfl, hfifo.mp hk⟩
      · rintro ⟨mode', heq, hno⟩
        cases heq
        exact ⟨kindOf mode, hfifo.mpr hno, hkind⟩

/-- From the one report to the other one printed count has gone up by one, and no other
has changed. -/
def CountedOnce (r r' : Report) : Prop :=
  ∃ i < r.categories.length, ∀ j, (r'.categories[j]?.map fun line => line.2.val) =
    r.categories[j]?.map fun line => line.2.val + if j = i then 1 else 0

theorem countedOnce_of_kind {c c' : Counts} {k : Kind} (hk : k ∈ printed)
    (hof : ∀ j, (c'.of j).val = (c.of j).val + if j = k then 1 else 0) (dir : Str) :
    CountedOnce (report dir c) (report dir c') := by
  have hline : ∀ (c : Counts) (g : Nat → Nat) (j : Nat),
      ((report dir c).categories[j]?.map fun line => g line.2.val) =
        printed[j]?.map fun k => g (c.of k).val := by
    intro c g j
    have hcounts := congrArg (List.map g) (report_counts dir c)
    rw [List.map_map, List.map_map] at hcounts
    rw [← List.getElem?_map, ← List.getElem?_map]
    exact congrArg (·[j]?) hcounts
  obtain ⟨i, hi, hik⟩ := List.getElem_of_mem hk
  refine ⟨i, hi, fun j => ?_⟩
  refine (hline c' id j).trans (Eq.trans ?_ (hline c (· + if j = i then 1 else 0) j).symm)
  cases hj : printed[j]? with
  | none => rfl
  | some k' =>
      -- the line of a kind is its place in the report
      have hplace : k' = k ↔ j = i := by
        have hi' : printed[i]? = some k := hik ▸ List.getElem?_eq_getElem hi
        constructor
        · rintro rfl
          exact ((List.getElem?_inj hi printed_nodup).mp (hi'.trans hj.symm)).symm
        · rintro rfl
          exact Option.some.inj (hj.symm.trans hi')
      simp only [Option.map_some, id, hof, hplace]

/-- The printed counts add up to the printed total, which is the number of entries, and
each round counts its entry in one printed category. -/
def Accounts (sys : System) (program dir : Str) (entries : List Entry) : Prop :=
  ∃ out r, main sys [program, dir] = some out ∧ out.report = some r ∧
    (r.categories.map fun line => line.2.val).sum = r.processed.val ∧
    r.processed.val = entries.length ∧
    ∀ pre e post, entries = pre ++ e :: post → ∃ s s', loop sys pre .start = some s ∧
      body sys s e = some s' ∧ CountedOnce (report dir s.counts) (report dir s'.counts)

theorem main_eq {sys : System} {program dir : Str} {entries : List Entry}
    (hopen : sys.opendir dir = .ok entries) (hchdir : sys.chdir dir = .ok ()) :
    main sys [program, dir] = (loop sys entries .start).bind fun s =>
      some ⟨0, some (report dir s.counts), s.stderr⟩ := by
  rw [main, hopen, hchdir]
  rfl

theorem Counted.sum_printed {c : Counts} {es : List Entry} (h : Counted c es) (dir : Str) :
    ((report dir c).categories.map fun line => line.2.val).sum =
      (printed.map (census Entry.kind es)).sum := by
  have heach : (fun k => (c.of k).val) = census Entry.kind es := funext h.each
  rw [report_counts, heach]

/-- The census accounts for every entry, exactly when the entries can be counted in an
`int`, every `lstat` succeeds and none of the files is a FIFO. -/
theorem accounts_iff {sys : System} {program dir : Str} {entries : List Entry}
    (hopen : sys.opendir dir = .ok entries) (hchdir : sys.chdir dir = .ok ()) :
    Accounts sys program dir entries ↔ entries.length ≤ intMax ∧
      ∀ e ∈ entries, ∃ mode, e.lstat = .ok mode ∧ isFifo mode = false := by
  have hkinds : (∀ e ∈ entries, ∃ mode, e.lstat = .ok mode ∧ isFifo mode = false) ↔
      (printed.map (census Entry.kind entries)).sum = entries.length := by
    rw [sum_census_eq_length_iff Entry.kind entries printed_nodup]
    exact forall₂_congr fun e _ => (kind_printed_iff e).symm
  by_cases hle : entries.length ≤ intMax
  swap
  · refine iff_of_false ?_ fun h => hle h.1
    rintro ⟨out, r, hmain, -⟩
    rw [main_eq hopen hchdir, loop_overflows sys Counted.start (by simpa using hle)] at hmain
    cases hmain
  obtain ⟨s, hloop, hs⟩ := loop_counted sys Counted.start (by simpa using hle)
  rw [List.nil_append] at hs
  have hmain : main sys [program, dir] = _ := main_eq hopen hchdir
  rw [hloop] at hmain
  rw [and_iff_right hle, hkinds, ← hs.sum_printed dir, ← hs.total]
  constructor
  · rintro ⟨out, r, hout, hr, hsum, -⟩
    rw [hmain] at hout
    cases hout
    cases hr
    exact hsum
  · intro hsum
    refine ⟨_, _, hmain, rfl, hsum, hs.total, fun pre e post heq => ?_⟩
    rw [hs.total, hs.sum_printed, sum_census_eq_length_iff Entry.kind entries printed_nodup] at hsum
    obtain ⟨k, hk, hkind⟩ := hsum e (by simp [heq])
    have hlen : entries.length = pre.length + (post.length + 1) := by simp [heq]
    -- the counters before the entry and after its round
    obtain ⟨s₁, hpre, hs₁⟩ : ∃ s₁, loop sys pre .start = some s₁ ∧
        Counted s₁.counts ([] ++ pre) :=
      loop_counted sys Counted.start (by rw [List.length_nil]; omega)
    obtain ⟨s₂, hbody, hs₂⟩ := body_counted sys (e := e) hs₁ (by rw [List.nil_append]; omega)
    refine ⟨s₁, s₂, hpre, hbody, countedOnce_of_kind hk (fun j => ?_) dir⟩
    rw [hs₂.each, hs₁.each, census_concat, hkind]
    simp [eq_comm]

/-- A directory with these entries, in a system without messages. -/
def listing (entries : List Entry) : System where
  opendir _ := .ok entries
  chdir _ := .ok ()
  strerror _ := []

/-- An entry whose mode `stat` and `lstat` report alike. -/
def plainEntry (name : Str) (mode : Mode) : Entry := ⟨name, .ok mode, .ok mode⟩

/-- A directory with the one file `a`. -/
theorem a_accounts : Accounts
    (listing [plainEntry ".".toList 0o040755, plainEntry "..".toList 0o040755,
      plainEntry "a".toList 0o100644])
    "ls2".toList ".".toList
    [plainEntry ".".toList 0o040755, plainEntry "..".toList 0o040755,
      plainEntry "a".toList 0o100644] := by
  refine (accounts_iff rfl rfl).mpr ⟨by decide, ?_⟩
  simp only [List.forall_mem_cons]
  exact ⟨⟨_, rfl, by decide⟩, ⟨_, rfl, by decide⟩, ⟨_, rfl, by decide⟩,
    fun e he => absurd he List.not_mem_nil⟩

/-- A directory with the one FIFO `p`: two entries are printed as counted, and three as
processed. -/
theorem p_unaccounted : ¬ Accounts
    (listing [plainEntry ".".toList 0o040755, plainEntry "..".toList 0o040755,
      plainEntry "p".toList 0o010644])
    "ls2".toList ".".toList
    [plainEntry ".".toList 0o040755, plainEntry "..".toList 0o040755,
      plainEntry "p".toList 0o010644] := by
  rintro ⟨out, r, hmain, hr, hsum, -⟩
  cases hmain
  cases hr
  exact absurd hsum (by decide)

end UnixSys.Listing
