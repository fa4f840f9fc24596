import Mathlib.Data.List.Range
import UnixSys.Posix.Sequential

/-!
# Stdio — what becomes of the text in the stdio buffer

`printf` puts text into a buffer. `fork` copies it, a successful `execvp` discards
the copy, `exit` writes it to descriptor 1, and when stdio finds it full enough it is
written before. The bytes that the shell prints are numbered, so that each can be
followed into the copies of the buffer and to where they are written. The account of
the shell is what has been written and what its own buffer holds: as long as no
`execvp` fails with bytes in the buffer, it holds every byte once.
-/

namespace UnixSys

variable {W α β : Type}

/-- A process with the bytes of the shell in its buffer. `printed` is how many the
shell has printed, and `out` which of them have been written where. -/
structure Tally (W : Type) where
  ctx : Ctx W
  buf : List Nat
  printed : Nat
  out : List (Nat × Ofd)

namespace Tally

/-- A process that has printed nothing. -/
def start (x : Ctx W) : Tally W := ⟨x, [], 0, []⟩

/-- The first `k` bytes of the buffer are written; they are lost when descriptor 1 is
not open. -/
def flush (t : Tally W) (k : Nat) : Tally W :=
  { t with
    buf := t.buf.drop k
    out := match t.ctx.fds.get 1 with
      | none => t.out
      | some o => t.out ++ (t.buf.take k).map (·, o) }

/-- The shell prints `len` bytes; stdio then writes as many as `early` says. -/
def print (early : List Nat → Nat) (t : Tally W) (len : Nat) : Tally W :=
  flush { t with buf := t.buf ++ List.range' t.printed len, printed := t.printed + len }
    (early (t.buf ++ List.range' t.printed len))

/-- After a call of the shell, or of a child: the own text of a child is not
followed. -/
def called (early : List Nat → Nat) (shell : Bool) (t : Tally W) (y : Ctx W) : Call → Tally W
  | .printf text => if shell then print early { t with ctx := y } text.length
      else { t with ctx := y }
  | _ => { t with ctx := y }

end Tally

/-- The sequential run, with the bytes of the shell. -/
def Prog.tally (env : Env W) (early : List Nat → Nat) :
    Bool → Prog α → Tally W → Outcome α × Tally W
  | _, .ret a, t => (.ret a, t)
  | _, .ub, t => (.ub, t)
  | _, .exit n, t => (.exited n, t.flush t.buf.length)
  | shell, .call c k, t =>
      match c.apply env t.ctx with
      | none => (.ub, t)
      | some (r, y) => (k r).tally env early shell (t.called early shell y c)
  | shell, .fork k, t =>
      let child := ((k .child).tally env early false
        { t with ctx := { t.ctx with procs := t.ctx.procs + 1 } }).2
      (k (.parent t.ctx.procs)).tally env early shell
        { t with ctx := t.ctx.after child.ctx, out := child.out }
  | shell, .execvp argv k, t =>
      match env.exec t.ctx.world (t.ctx.fds.launch argv) with
      | some (_, w) => (.execed, { t with ctx := { t.ctx with world := w }, buf := [] })
      | none => k.tally env early shell t
  | shell, .waitpid _ k, t => k.tally env early shell t
  | shell, .waitFor _ k, t => k.tally env early shell t

/-- No `execvp` of the run fails with bytes of the shell in the buffer. -/
def Prog.NoneSpills (env : Env W) (early : List Nat → Nat) :
    Bool → Prog α → Tally W → Prop
  | _, .ret _, _ => True
  | _, .ub, _ => True
  | _, .exit _, _ => True
  | shell, .call c k, t =>
      match c.apply env t.ctx with
      | none => True
      | some (r, y) => (k r).NoneSpills env early shell (t.called early shell y c)
  | shell, .fork k, t =>
      let s := { t with ctx := { t.ctx with procs := t.ctx.procs + 1 } }
      let child := ((k .child).tally env early false s).2
      (k .child).NoneSpills env early false s ∧
        (k (.parent t.ctx.procs)).NoneSpills env early shell
          { t with ctx := t.ctx.after child.ctx, out := child.out }
  | shell, .execvp argv k, t =>
      env.exec t.ctx.world (t.ctx.fds.launch argv) = none →
        t.buf = [] ∧ k.NoneSpills env early shell t
  | shell, .waitpid _ k, t => k.NoneSpills env early shell t
  | shell, .waitFor _ k, t => k.NoneSpills env early shell t

/-- Related programs have the same tally. -/
theorem Prog.Rel.tally {V : α → β → Prop} {p : Prog α} {q : Prog β} (h : p.Rel V q)
    (env : Env W) (early : List Nat → Nat) (shell : Bool) (t : Tally W) :
    (p.tally env early shell t).1.Rel V (q.tally env early shell t).1 ∧
      (p.tally env early shell t).2 = (q.tally env early shell t).2 := by
  induction h generalizing shell t with
  | ret hab => exact ⟨.ret hab, rfl⟩
  | ub => exact ⟨.ub, rfl⟩
  | exit n => exact ⟨.exited n, rfl⟩
  | call c _ ih =>
      simp only [Prog.tally]
      cases happ : c.apply env t.ctx with
      | none => exact ⟨.ub, rfl⟩
      | some ry => exact ih ry.1 (Call.valid_of_apply happ) shell _
  | fork _ ih =>
      simp only [Prog.tally]
      rw [(ih .child false _).2]
      exact ih _ shell _
  | execvp argv _ ih =>
      simp only [Prog.tally]
      cases env.exec t.ctx.world (t.ctx.fds.launch argv) with
      | none => exact ih shell _
      | some iw => exact ⟨.execed, rfl⟩
  | waitpid pid _ ih => exact ih shell t
  | waitFor pid _ ih => exact ih shell t

/-- Related programs spill alike. -/
theorem Prog.Rel.noneSpills {V : α → β → Prop} {p : Prog α} {q : Prog β} (h : p.Rel V q)
    (env : Env W) (early : List Nat → Nat) (shell : Bool) (t : Tally W) :
    p.NoneSpills env early shell t ↔ q.NoneSpills env early shell t := by
  induction h generalizing shell t with
  | ret _ => exact Iff.rfl
  | ub => exact Iff.rfl
  | exit n => exact Iff.rfl
  | call c _ ih =>
      simp only [Prog.NoneSpills]
      cases happ : c.apply env t.ctx with
      | none => exact Iff.rfl
      | some ry => exact ih ry.1 (Call.valid_of_apply happ) shell _
  | fork hk ih =>
      simp only [Prog.NoneSpills]
      rw [((hk .child).tally env early false _).2]
      exact and_congr (ih .child false _) (ih _ shell _)
  | execvp argv _ ih =>
      simp only [Prog.NoneSpills]
      exact imp_congr_right fun _ => and_congr_right fun _ => ih shell t
  | waitpid pid _ ih => exact ih shell t
  | waitFor pid _ ih => exact ih shell t

/-! ## The account of the shell -/

/-- Each byte that the shell has printed is written once, to `o`, and nowhere else. -/
def PrintedOnce (o : Ofd) (t : Tally W) : Prop :=
  ∀ n < t.printed, t.out.filter (·.1 = n) = [(n, o)]

/-- What has been written, and what the shell still holds for `o`. -/
def Tally.total (o : Ofd) (t : Tally W) : List (Nat × Ofd) := t.out ++ t.buf.map (·, o)

/-- Every byte is in the account once, as long as `ok` holds; else some byte is there
twice. -/
structure Balanced (o : Ofd) (ok : Prop) (t : Tally W) : Prop where
  clean : ok → t.total o = (List.range t.printed).map (·, o)
  doubled : ¬ ok → ∃ n < t.printed, 2 ≤ ((t.total o).filter (·.1 = n)).length

theorem filter_range (o : Ofd) {n k : Nat} (hn : n < k) :
    ((List.range k).map (·, o)).filter (·.1 = n) = [(n, o)] := by
  induction k with
  | zero => omega
  | succ k ih =>
      rw [List.range_succ, List.map_append, List.filter_append]
      by_cases hk : n < k
      · have hne : k ≠ n := by omega
        rw [ih hk]
        simp [hne]
      · obtain rfl : n = k := by omega
        have hnone : ((List.range n).map (·, o)).filter (·.1 = n) = [] := by
          rw [List.filter_eq_nil_iff]
          intro e he
          obtain ⟨m, hm, rfl⟩ := List.mem_map.mp he
          have hlt := List.mem_range.mp hm
          simp
          omega
        rw [hnone]
        simp

section
variable {o : Ofd} {ok ok' : Prop} {t t' : Tally W}

theorem Balanced.start (x : Ctx W) : Balanced o True (.start x) :=
  ⟨fun _ => rfl, fun h => (h trivial).elim⟩

/-- The account depends on the bytes only. -/
theorem Balanced.congr (h : Balanced o ok t) (htotal : t'.total o = t.total o)
    (hprinted : t'.printed = t.printed) (hok : ok' ↔ ok) : Balanced o ok' t' := by
  constructor
  · intro hs
    rw [htotal, hprinted]
    exact h.clean (hok.mp hs)
  · intro hs
    rw [htotal, hprinted]
    exact h.doubled (mt hok.mpr hs)

/-- Writing to `o` keeps the account. -/
theorem flush_total (ho : t.ctx.fds.get 1 = some o) (k : Nat) :
    (t.flush k).total o = t.total o := by
  unfold Tally.total Tally.flush
  simp only [ho]
  rw [List.append_assoc, ← List.map_append, List.take_append_drop]

theorem Balanced.flush (h : Balanced o ok t) (ho : t.ctx.fds.get 1 = some o) (k : Nat) :
    Balanced o ok (t.flush k) := h.congr (flush_total ho k) rfl Iff.rfl

theorem Balanced.print (h : Balanced o ok t) (ho : t.ctx.fds.get 1 = some o)
    (early : List Nat → Nat) (len : Nat) : Balanced o ok (t.print early len) := by
  unfold Tally.print
  refine Balanced.flush
    (t := { t with buf := t.buf ++ List.range' t.printed len, printed := t.printed + len }) ?_ ho _
  have htotal : ∀ buf : List Nat, ({ t with buf := t.buf ++ buf, printed := t.printed + len } :
      Tally W).total o = t.total o ++ buf.map (·, o) := by
    intro buf
    unfold Tally.total
    rw [List.map_append, List.append_assoc]
  constructor
  · intro hs
    rw [htotal, h.clean hs, ← List.map_append]
    show _ = (List.range (t.printed + len)).map (·, o)
    rw [List.range_eq_range', List.range_eq_range', ← List.range'_append_1, Nat.zero_add]
  · intro hs
    obtain ⟨n, hn, htwo⟩ := h.doubled hs
    refine ⟨n, Nat.lt_add_right len hn, ?_⟩
    rw [htotal, List.filter_append, List.length_append]
    omega

/-- Once the buffer is empty, the account is what has been written. -/
theorem Balanced.printedOnce_iff (h : Balanced o ok t) (hbuf : t.buf = []) :
    PrintedOnce o t ↔ ok := by
  have htotal : t.total o = t.out := by
    unfold Tally.total
    rw [hbuf, List.map_nil, List.append_nil]
  constructor
  · intro honce
    by_contra hs
    obtain ⟨n, hn, htwo⟩ := h.doubled hs
    rw [htotal, honce n hn, List.length_singleton] at htwo
    omega
  · intro hs n hn
    rw [← htotal, h.clean hs]
    exact filter_range o hn

end

/-! ## Programs that keep the account -/

/-- A child that goes on to `execvp`, and prints and exits only when that fails. Its
descriptor 1 is open then, and it makes no pipe. -/
def Prog.RunsCommand (env : Env W) : Prog α → Ctx W → Prop
  | .ret _, _ => False
  | .ub, _ => True
  | .exit _, _ => False
  | .call c k, x => ∀ r y, c.apply env x = some (r, y) →
      y.pipes = x.pipes ∧ (k r).RunsCommand env y
  | .fork _, _ => False
  | .execvp _ k, x => x.fds.get 1 ≠ none ∧
      ∃ text n, k = .call (.printf text) fun _ => .exit n
  | .waitpid _ _, _ => False
  | .waitFor _ _, _ => False

def Call.prints : Call → Bool
  | .printf _ => true
  | .perror _ | .strcasecmp _ _ | .glob _ | .openFile _ _ | .dup _ | .dup2 _ _ | .close _
  | .pipe => false

/-- A shell that prints and exits only while its descriptor 1 is `o`, and leaves the
rest to children. `Q` holds of its results. -/
def Prog.PrintsTo (env : Env W) (o : Ofd) (Q : α → Ctx W → Prop) : Prog α → Ctx W → Prop
  | .ret a, x => Q a x
  | .ub, _ => True
  | .exit _, x => x.fds.get 1 = some o
  | .call c k, x => (c.prints = true → x.fds.get 1 = some o) ∧
      ∀ r y, c.apply env x = some (r, y) → (k r).PrintsTo env o Q y
  | .fork k, x => (k .child).RunsCommand env { x with procs := x.procs + 1 } ∧
      ∀ w procs, (k (.parent x.procs)).PrintsTo env o Q { x with world := w, procs := procs }
  | .execvp _ _, _ => False
  | .waitpid _ k, x => k.PrintsTo env o Q x
  | .waitFor _ k, x => k.PrintsTo env o Q x

theorem Prog.PrintsTo.bind {env : Env W} {o : Ofd} {Q : α → Ctx W → Prop}
    {Q' : β → Ctx W → Prop} {p : Prog α} {f : α → Prog β} {x : Ctx W}
    (h : p.PrintsTo env o Q x) (hf : ∀ a y, Q a y → (f a).PrintsTo env o Q' y) :
    (p >>= f).PrintsTo env o Q' x := by
  have hchild : ∀ {q : Prog α} {y : Ctx W}, q.RunsCommand env y →
      (q >>= f).RunsCommand env y := by
    intro q
    induction q with
    | ret a => exact False.elim
    | ub => exact id
    | exit n => exact False.elim
    | call c k ih => exact fun hq r y happ => ⟨(hq r y happ).1, ih r (hq r y happ).2⟩
    | fork k _ => exact False.elim
    | execvp argv k _ =>
        rintro y ⟨hone, text, n, rfl⟩
        exact ⟨hone, text, n, rfl⟩
    | waitpid pid k _ => exact False.elim
    | waitFor pid k _ => exact False.elim
  induction p generalizing x with
  | ret a => exact hf a x h
  | ub => exact h
  | exit n => exact h
  | call c k ih => exact ⟨h.1, fun r y happ => ih r (h.2 r y happ)⟩
  | fork k ih => exact ⟨hchild h.1, fun w procs => ih _ (h.2 w procs)⟩
  | execvp argv k _ => exact h.elim
  | waitpid pid k ih => exact ih h
  | waitFor pid k ih => exact ih h

/-! The calls one by one. -/

namespace Prog.PrintsTo

variable {env : Env W} {o : Ofd} {Q : α → Ctx W → Prop} {x : Ctx W}

theorem printf {text : Str} {k : Unit → Prog α} (ho : x.fds.get 1 = some o)
    (h : (k ()).PrintsTo env o Q { x with buf := x.buf ++ text }) :
    (Prog.call (.printf text) k).PrintsTo env o Q x := by
  refine ⟨fun _ => ho, ?_⟩
  rintro r y ⟨⟩
  exact h

/-- A call that prints nothing. -/
theorem quiet {c : Call} {k : c.Res → Prog α} (hc : c.prints = false)
    (h : ∀ r y, c.apply env x = some (r, y) → (k r).PrintsTo env o Q y) :
    (Prog.call c k).PrintsTo env o Q x := by
  refine ⟨?_, h⟩
  intro hprints
  rw [hc] at hprints
  cases hprints

theorem perror {text : Str} {k : Unit → Prog α} (h : (k ()).PrintsTo env o Q x) :
    (Prog.call (.perror text) k).PrintsTo env o Q x := by
  refine .quiet rfl ?_
  rintro r y ⟨⟩
  exact h

theorem glob {pat : Str} {k : Option (List Str) → Prog α} (h : ∀ r, (k r).PrintsTo env o Q x) :
    (Prog.call (.glob pat) k).PrintsTo env o Q x := by
  refine .quiet rfl ?_
  rintro r y ⟨⟩
  exact h _

theorem strcasecmp {s : Option Str} {t : Str} {k : Bool → Prog α}
    (h : ∀ r, (k r).PrintsTo env o Q x) :
    (Prog.call (.strcasecmp s t) k).PrintsTo env o Q x := by
  refine .quiet rfl ?_
  intro r y happ
  cases s with
  | none => cases happ
  | some s =>
      cases happ
      exact h _

theorem dup {fd : Int} {a : Ofd} {k : Int → Prog α} (ha : x.fds.get fd = some a)
    (h : (k x.fds.lowest).PrintsTo env o Q { x with fds := x.fds.put x.fds.lowest a }) :
    (Prog.call (.dup fd) k).PrintsTo env o Q x := by
  refine .quiet rfl ?_
  intro r y happ
  simp only [Call.apply, ha] at happ
  cases happ
  exact h

theorem dup2 {old new : Int} {k : Unit → Prog α}
    (h : (k ()).PrintsTo env o Q { x with fds := x.fds.dup2 old new }) :
    (Prog.call (.dup2 old new) k).PrintsTo env o Q x := by
  refine .quiet rfl ?_
  rintro r y ⟨⟩
  exact h

theorem close {fd : Int} {k : Unit → Prog α}
    (h : (k ()).PrintsTo env o Q { x with fds := x.fds.close fd }) :
    (Prog.call (.close fd) k).PrintsTo env o Q x := by
  refine .quiet rfl ?_
  rintro r y ⟨⟩
  exact h

theorem pipe {k : Option (Int × Int) → Prog α}
    (h : (k (some (x.fds.pipeFds x.pipes))).PrintsTo env o Q
      { x with fds := x.fds.pipe x.pipes, pipes := x.pipes + 1 }) :
    (Prog.call .pipe k).PrintsTo env o Q x := by
  refine .quiet rfl ?_
  rintro r y ⟨⟩
  exact h

theorem openFile {path : Str} {how : OpenHow} {k : Int → Prog α}
    (hfail : (k (-1)).PrintsTo env o Q x)
    (h : ∀ w, (k x.fds.lowest).PrintsTo env o Q
      { x with fds := x.fds.put x.fds.lowest (.file path how), world := w }) :
    (Prog.call (.openFile path how) k).PrintsTo env o Q x := by
  refine .quiet rfl ?_
  intro r y happ
  simp only [Call.apply] at happ
  cases hopen : env.openFile x.world path how with
  | none =>
      rw [hopen] at happ
      cases happ
      exact hfail
  | some w =>
      rw [hopen] at happ
      cases happ
      exact h w

end Prog.PrintsTo

/-! ## The account over a run -/

section
variable {env : Env W} {o : Ofd} {ok : Prop} {t t' : Tally W}

/-- What a child leaves: the account of the shell as it was, or one more copy of the
bytes in the buffer, when its `execvp` failed. -/
def Spills (ok : Prop) (t t' : Tally W) : Prop :=
  (ok ∧ t'.out = t.out) ∨ (¬ ok ∧ t.buf ≠ [] ∧ ∃ d, t'.out = t.out ++ t.buf.map (·, d))

theorem called_child (early : List Nat → Nat) (t : Tally W) (y : Ctx W) (c : Call) :
    t.called early false y c = { t with ctx := y } := by
  cases c <;> rfl

theorem Prog.RunsCommand.spills (early : List Nat → Nat) {p : Prog α}
    (h : p.RunsCommand env t.ctx) :
    (p.tally env early false t).2.ctx.pipes = t.ctx.pipes ∧
      Spills (p.NoneSpills env early false t) t (p.tally env early false t).2 := by
  induction p generalizing t with
  | ret a => exact h.elim
  | ub => exact ⟨rfl, .inl ⟨trivial, rfl⟩⟩
  | exit n => exact h.elim
  | call c k ih =>
      simp only [Prog.tally, Prog.NoneSpills]
      cases happ : c.apply env t.ctx with
      | none => exact ⟨rfl, .inl ⟨trivial, rfl⟩⟩
      | some ry =>
          obtain ⟨r, y⟩ := ry
          obtain ⟨hpipes, hrest⟩ := h r y happ
          have hk := ih r (t := { t with ctx := y }) hrest
          simp only
          rw [called_child]
          exact ⟨hk.1.trans hpipes, hk.2⟩
  | fork k _ => exact h.elim
  | execvp argv k _ =>
      obtain ⟨hone, text, n, rfl⟩ := h
      simp only [Prog.tally, Prog.NoneSpills]
      cases env.exec t.ctx.world (t.ctx.fds.launch argv) with
      | some iw =>
          refine ⟨rfl, .inl ⟨?_, rfl⟩⟩
          intro hnone
          cases hnone
      | none =>
          refine ⟨rfl, ?_⟩
          obtain ⟨d, hd⟩ := Option.ne_none_iff_exists'.mp hone
          -- the child goes on to `exit`, which writes its copy of the buffer
          by_cases hbuf : t.buf = []
          · left
            simp [Call.apply, Tally.called, Tally.flush, hbuf, hd]
          · right
            refine ⟨?_, hbuf, d, ?_⟩
            · intro hnone
              exact hbuf (hnone rfl).1
            · simp [Call.apply, Tally.called, Tally.flush, hd]
  | waitpid pid k _ => exact h.elim
  | waitFor pid k _ => exact h.elim

/-- The account after a child. -/
theorem Balanced.spills {kept : Prop} (h : Balanced o ok t) (hs : Spills kept t t')
    (x : Ctx W) : Balanced o (ok ∧ kept) { t with ctx := x, out := t'.out } := by
  rcases hs with ⟨hkept, hout⟩ | ⟨hkept, hbuf, d, hout⟩
  · refine h.congr ?_ rfl (and_iff_left hkept)
    unfold Tally.total
    rw [hout]
  constructor
  · intro hboth
    exact (hkept hboth.2).elim
  intro _
  have htotal : ∀ n, (((t'.out ++ t.buf.map (·, o)).filter (·.1 = n)).length =
      ((t.total o).filter (·.1 = n)).length + ((t.buf.map (·, d)).filter (·.1 = n)).length) := by
    intro n
    unfold Tally.total
    rw [hout]
    simp only [List.filter_append, List.length_append]
    omega
  by_cases hold : ok
  · -- the first byte of the buffer is there twice now
    have hclean := h.clean hold
    obtain ⟨n, rest, hcons⟩ := List.exists_cons_of_ne_nil hbuf
    have hmem : (n, o) ∈ t.total o := by
      unfold Tally.total
      rw [hcons]
      simp
    have hn : n < t.printed := by
      rw [hclean] at hmem
      simpa using hmem
    refine ⟨n, hn, ?_⟩
    show 2 ≤ ((t'.out ++ t.buf.map (·, o)).filter (·.1 = n)).length
    rw [htotal, hclean, filter_range o hn, hcons]
    simp
    omega
  · -- some byte was there twice already
    obtain ⟨n, hn, htwo⟩ := h.doubled hold
    refine ⟨n, hn, ?_⟩
    show 2 ≤ ((t'.out ++ t.buf.map (·, o)).filter (·.1 = n)).length
    rw [htotal]
    omega

/-- A program that prints to `o` keeps the account, and its exit empties the buffer. -/
theorem Prog.PrintsTo.tally (early : List Nat → Nat) {p : Prog α} {Q : α → Ctx W → Prop}
    (h : p.PrintsTo env o Q t.ctx) (hb : Balanced o ok t) :
    Balanced o (ok ∧ p.NoneSpills env early true t) (p.tally env early true t).2 ∧
      (∀ n, (p.tally env early true t).1 = .exited n → (p.tally env early true t).2.buf = []) := by
  induction p generalizing t ok with
  | ret a =>
      refine ⟨hb.congr rfl rfl (and_iff_left trivial), ?_⟩
      intro n hn
      cases hn
  | ub =>
      refine ⟨hb.congr rfl rfl (and_iff_left trivial), ?_⟩
      intro n hn
      cases hn
  -- `exit` writes what is left to the descriptor 1 that the shell still has
  | exit n =>
      refine ⟨(hb.flush h _).congr rfl rfl (and_iff_left trivial), ?_⟩
      intro _ _
      exact List.drop_length
  | call c k ih =>
      simp only [Prog.tally, Prog.NoneSpills]
      cases happ : c.apply env t.ctx with
      | none =>
          refine ⟨hb.congr rfl rfl (and_iff_left trivial), ?_⟩
          intro n hn
          cases hn
      | some ry =>
          obtain ⟨r, y⟩ := ry
          have hk := h.2 r y happ
          have hbalanced : Balanced o ok (t.called early true y c) := by
            cases c with
            | printf text =>
                have ho := h.1 rfl
                cases happ
                have hsame : Balanced o ok
                    { t with ctx := { t.ctx with buf := t.ctx.buf ++ text } } :=
                  hb.congr rfl rfl Iff.rfl
                exact hsame.print ho early text.length
            | _ => exact hb.congr rfl rfl Iff.rfl
          refine ih r (t := t.called early true y c) ?_ hbalanced
          cases c <;> exact hk
  | fork k ih =>
      -- the child spills its copy of the buffer, or nothing
      obtain ⟨hpipes, hspills⟩ := Prog.RunsCommand.spills early
        (t := { t with ctx := { t.ctx with procs := t.ctx.procs + 1 } }) h.1
      simp only [Prog.tally, Prog.NoneSpills]
      generalize (k .child).NoneSpills env early false _ = kept at hspills ⊢
      generalize ((k .child).tally env early false
        { t with ctx := { t.ctx with procs := t.ctx.procs + 1 } }).2 = child at hpipes hspills ⊢
      have hctx : t.ctx.after child.ctx =
          { t.ctx with world := child.ctx.world, procs := child.ctx.procs } := by
        unfold Ctx.after
        rw [hpipes]
      rw [hctx, ← and_assoc]
      exact ih (.parent t.ctx.procs) (t := { t with ctx := _, out := _ })
        (h.2 _ _) (hb.spills hspills _)
  | execvp argv k _ => exact h.elim
  | waitpid pid k ih => exact ih h hb
  | waitFor pid k ih => exact ih h hb

end

end UnixSys
