import UnixSys.Db.Locking
import UnixSys.Lib.Runs

/-!
# Processes — several processes with one database

The processes share the two files and make their calls in any order. A lock is granted when it
conflicts with no lock of another process; until then the process waits. Whatever they do, one
of them can go on.
-/

namespace UnixSys.Db

/-- A process: what it has still to do, its positions in the files, its locks and `errno`. -/
structure Proc where
  prog : Io (List Answer)
  pos : File → Nat
  locks : List Lock
  errno : Option Errno

namespace Proc

/-- Whether the process has not ended. -/
def Alive (p : Proc) : Prop :=
  match p.prog with
  | .call _ _ | .spin => True
  | .ret _ | .stop _ | .ub => False

/-- A process that ends loses its locks. -/
def held (p : Proc) : List Lock :=
  match p.prog with
  | .call _ _ | .spin => p.locks
  | .ret _ | .stop _ | .ub => []

/-- The lock that the process asks for. -/
def want (p : Proc) : Option Lock :=
  match p.prog with
  | .call (.lock l) _ => some l
  | _ => none

theorem held_subset (p : Proc) : p.held ⊆ p.locks := by
  rw [held]
  split
  · exact fun _ h => h
  · exact fun _ h => h
  all_goals exact fun _ h => absurd h List.not_mem_nil

theorem held_of_not_alive {p : Proc} (h : ¬ p.Alive) : p.held = [] := by
  rw [held]
  rw [Alive] at h
  split at h <;> simp_all

end Proc

/-- The two files, and the processes. -/
structure System (ι : Type) where
  present : File → Bool
  bytes : File → Str
  proc : ι → Proc

namespace System

variable {ι : Type} [DecidableEq ι]

/-- What process `i` sees. -/
def world (S : System ι) (i : ι) : World where
  idx := ⟨S.present .idx, S.bytes .idx, (S.proc i).pos .idx⟩
  dat := ⟨S.present .dat, S.bytes .dat, (S.proc i).pos .dat⟩
  locks := (S.proc i).locks
  errno := (S.proc i).errno

/-- Process `i` has made a call, which has left the world `w`. -/
def after (S : System ι) (i : ι) (prog : Io (List Answer)) (w : World) : System ι where
  present f := (w.get f).present
  bytes f := (w.get f).bytes
  proc := Function.update S.proc i ⟨prog, fun f => (w.get f).pos, w.locks, w.errno⟩

/-- One process makes its next call. -/
inductive Step : System ι → System ι → Prop where
  | call {S : System ι} (i : ι) (c : Call) (k : c.Res → Io (List Answer))
      (hprog : (S.proc i).prog = .call c k)
      (hfree : ∀ l, (S.proc i).want = some l → ∀ j ≠ i, ∀ h ∈ (S.proc j).held, ¬ l.conflicts h) :
      Step S (S.after i (k (c.apply (S.world i)).1) (c.apply (S.world i)).2)
  | spin {S : System ι} (i : ι) (hprog : (S.proc i).prog = .spin) : Step S S

/-- Processes that are about to start, with any files. -/
def start (present : File → Bool) (bytes : File → Str)
    (jobs : ι → (Bool × Bool) × List Op) : System ι where
  present := present
  bytes := bytes
  proc i := ⟨process (jobs i).1.1 (jobs i).1.2 (jobs i).2, fun _ => 0, [], none⟩

end System

/-! ## The invariant -/

theorem locks_apply (c : Call) (w : World) :
    (c.apply w).2.locks = c.locksAfter (c.apply w).1 w.locks := by
  cases c with
  | openFile f creat trunc =>
      rw [Call.apply]
      split
      · cases f <;> rfl
      · rfl
  | fstat f => rfl
  | lseek f off whence =>
      rw [Call.apply]
      dsimp only
      split
      · rfl
      · cases f <;> rfl
  | read f n => cases f <;> rfl
  | write f bytes => cases f <;> rfl
  | lock l => rfl
  | unlock f start len => rfl
  | close f => rfl
  | setErrno e => rfl

theorem process_ordered (creat trunc : Bool) (ops : List Op) :
    (process creat trunc ops).Ordered (fun _ held => held = []) [] := by
  rw [process, ordered_bind]
  refine dbOpen_ordered trivial fun db hdb => ?_
  refine ordered_bind.mpr (session_ordered hdb fun r _ => ?_)
  exact ordered_bind.mpr (dbClose_ordered rfl)

/-- A process keeps the order of locks, and has only locks of the library. -/
structure Proc.Orderly (p : Proc) : Prop where
  prog : p.prog.Ordered (fun _ held => held = []) p.locks
  known : ∀ l ∈ p.locks, l.Known

theorem locksAfter_known {c : Call} {r : c.Res} {held : List Lock} (hc : c.InOrder held)
    (hknown : ∀ l ∈ held, l.Known) : ∀ l ∈ c.locksAfter r held, l.Known := by
  cases c with
  | openFile _ _ _ => exact hknown
  | fstat _ => exact hknown
  | lseek _ _ _ => exact hknown
  | read _ _ => exact hknown
  | write _ _ => exact hknown
  | setErrno _ => exact hknown
  | lock l =>
      cases r with
      | false => exact hknown
      | true =>
          intro l' hl'
          rcases List.mem_cons.mp hl' with rfl | hl'
          · exact hc.1
          · exact hknown l' hl'
  | unlock _ _ _ =>
      cases r with
      | false => exact hknown
      | true => exact fun l hl => hknown l (List.mem_of_mem_filter hl)
  | close _ => exact fun l hl => hknown l (List.mem_of_mem_filter hl)

namespace System

variable {ι : Type} [DecidableEq ι] {S S' : System ι} {i : ι}

@[simp] theorem proc_after (S : System ι) (i : ι) (prog : Io (List Answer)) (w : World) :
    (S.after i prog w).proc i = ⟨prog, fun f => (w.get f).pos, w.locks, w.errno⟩ :=
  Function.update_self _ _ _

theorem proc_after_of_ne {j : ι} (hj : j ≠ i) (prog : Io (List Answer)) (w : World) :
    (S.after i prog w).proc j = S.proc j :=
  Function.update_of_ne hj _ _

/-- The process that has made a call is orderly again. -/
theorem orderly_after (h : (S.proc i).Orderly) {c : Call} {k : c.Res → Io (List Answer)}
    (hprog : (S.proc i).prog = .call c k) :
    ((S.after i (k (c.apply (S.world i)).1) (c.apply (S.world i)).2).proc i).Orderly := by
  have hordered := h.prog
  rw [hprog] at hordered
  rw [proc_after]
  refine ⟨?_, ?_⟩
  · rw [locks_apply]
    exact hordered.2 _
  · rw [locks_apply]
    exact locksAfter_known hordered.1 h.known

theorem orderly_step (h : ∀ i, (S.proc i).Orderly) (hstep : Step S S') :
    ∀ i, (S'.proc i).Orderly := by
  cases hstep with
  | spin i _ => exact h
  | call i c k hprog hfree =>
      intro j
      by_cases hj : j = i
      · rw [hj]
        exact orderly_after (h i) hprog
      · rw [proc_after_of_ne hj]
        exact h j

/-- In every state that can be reached every process is orderly. -/
theorem orderly {present : File → Bool} {bytes : File → Str}
    {jobs : ι → (Bool × Bool) × List Op} (hreach : Reachable Step (start present bytes jobs) S) :
    ∀ i, (S.proc i).Orderly := by
  refine hreach.invariant (fun i => ⟨?_, ?_⟩) fun _ _ h hstep => orderly_step h hstep
  · exact process_ordered _ _ _
  · exact fun l hl => absurd hl List.not_mem_nil

theorem want_eq_some {p : Proc} {l : Lock} (h : p.want = some l) :
    ∃ k, p.prog = .call (.lock l) k := by
  rw [Proc.want] at h
  split at h
  · next l' k hprog =>
      obtain rfl := Option.some.inj h
      exact ⟨k, hprog⟩
  · cases h

/-- **No deadlock.** As long as a process has not ended, one of them can go on. -/
theorem no_deadlock [Finite ι] {present : File → Bool} {bytes : File → Str}
    {jobs : ι → (Bool × Bool) × List Op} (hreach : Reachable Step (start present bytes jobs) S)
    (halive : ∃ i, (S.proc i).Alive) : ∃ S', Step S S' := by
  have horderly := orderly hreach
  have hinorder : ∀ i l, (S.proc i).want = some l →
      l.Known ∧ ∀ h ∈ (S.proc i).locks, h.high < l.low := by
    intro i l hl
    obtain ⟨k, hprog⟩ := want_eq_some hl
    have hordered := (horderly i).prog
    rw [hprog] at hordered
    exact hordered.1
  have hdead : ∀ i, ¬ (S.proc i).Alive → (S.proc i).held = [] := fun i hi =>
    Proc.held_of_not_alive hi
  have horder : ∀ i l h, (S.proc i).want = some l → h ∈ (S.proc i).held → h.high < l.low :=
    fun i l h hl hh => (hinorder i l hl).2 h ((S.proc i).held_subset hh)
  have hconflict : ∀ i j l h, (S.proc i).want = some l → h ∈ (S.proc j).held → l.conflicts h →
      l.low ≤ h.high := fun i j l h hl hh hc =>
    low_le_high (hinorder i l hl).1 ((horderly j).known h ((S.proc j).held_subset hh)) hc
  obtain ⟨i, hi, hfree⟩ := exists_unblocked hdead horder hconflict halive
  rw [Proc.Alive] at hi
  split at hi
  · next c k hprog => exact ⟨_, .call i c k hprog hfree⟩
  · next hprog => exact ⟨S, .spin i hprog⟩
  all_goals cases hi

/-- A step of one of two processes, which gets the lock it asks for. -/
theorem step_call {S : System (Fin 2)} (i : Fin 2) {c : Call} {k : c.Res → Io (List Answer)}
    (hprog : (S.proc i).prog = .call c k)
    (hfree : ∀ l ∈ (S.proc i).want, ∀ h ∈ (S.proc (1 - i)).held, ¬ l.conflicts h) :
    Step S (S.after i (k (c.apply (S.world i)).1) (c.apply (S.world i)).2) := by
  have hother : ∀ i j : Fin 2, j ≠ i → j = 1 - i := by decide
  exact .call i c k hprog fun l hl j hj h hh => hfree l hl h (hother i j hj ▸ hh)

theorem no_lock {S : System (Fin 2)} {i : Fin 2} (h : (S.proc i).want = none) :
    ∀ l ∈ (S.proc i).want, ∀ h ∈ (S.proc (1 - i)).held, ¬ l.conflicts h := by
  rw [h]
  exact fun _ hl => by cases hl

theorem no_held {S : System (Fin 2)} {i : Fin 2} (h : (S.proc (1 - i)).held = []) :
    ∀ l ∈ (S.proc i).want, ∀ h ∈ (S.proc (1 - i)).held, ¬ l.conflicts h := by
  rw [h]
  exact fun _ _ _ hh => by cases hh

/-- One of two processes stores a key; the other, which is to delete it, waits for the lock of its
chain. -/
theorem alpha_no_deadlock : ∃ S : System (Fin 2),
    (∃ l, (S.proc 1).want = some l ∧ ∃ h ∈ (S.proc 0).held, l.conflicts h) ∧
    ∃ S', Step S S' := by
  have hstart : Reachable Step (start (fun _ => true) (fun f => (Layout.empty.world.get f).bytes)
      fun i : Fin 2 => ((false, false), [if i = 0 then
        .store "Alpha".toList "data1".toList Flag.dbStore else .delete "Alpha".toList])) _ := .refl _
  have h1 := hstart.tail (step_call 1 rfl (no_lock rfl))
  have h2 := h1.tail (step_call 1 rfl (no_lock rfl))
  have h3 := h2.tail (step_call 1 rfl (no_lock rfl))
  have h4 := h3.tail (step_call 0 rfl (no_lock rfl))
  have h5 := h4.tail (step_call 0 rfl (no_lock rfl))
  have h6 := h5.tail (step_call 0 rfl (no_lock rfl))
  have h7 := h6.tail (step_call 0 rfl (no_held rfl))
  refine ⟨_, ⟨_, rfl, _, List.mem_cons_self, ?_⟩, no_deadlock h7 ⟨0, trivial⟩⟩
  exact ⟨rfl, .inl rfl, .inr (by decide), .inr (by decide)⟩

/-! ## Mutual exclusion -/

theorem conflicts_comm {l l' : Lock} (h : l.conflicts l') : l'.conflicts l := by
  obtain ⟨hfile, hkind, hbefore, hbehind⟩ := h
  exact ⟨hfile.symm, hkind.symm, hbehind, hbefore⟩

/-- The locks of a process after a call are those before it, and that which it asked for. -/
theorem mem_locksAfter {c : Call} {r : c.Res} {held : List Lock} {l : Lock}
    (h : l ∈ c.locksAfter r held) : l ∈ held ∨ c = .lock l := by
  cases c with
  | openFile _ _ _ => exact .inl h
  | fstat _ => exact .inl h
  | lseek _ _ _ => exact .inl h
  | read _ _ => exact .inl h
  | write _ _ => exact .inl h
  | setErrno _ => exact .inl h
  | lock l' =>
      cases r with
      | false => exact .inl h
      | true =>
          rcases List.mem_cons.mp h with rfl | h
          · exact .inr rfl
          · exact .inl h
  | unlock _ _ _ =>
      cases r with
      | false => exact .inl h
      | true => exact .inl (List.mem_of_mem_filter h)
  | close _ => exact .inl (List.mem_of_mem_filter h)

/-- No two processes have locks in conflict. -/
def Exclusive (S : System ι) : Prop :=
  ∀ i j, i ≠ j → ∀ l ∈ (S.proc i).held, ∀ l' ∈ (S.proc j).held, ¬ l.conflicts l'

theorem exclusive_step (h : Exclusive S) (hstep : Step S S') : Exclusive S' := by
  cases hstep with
  | spin i _ => exact h
  | call i c k hprog hfree =>
      -- a lock of process `i` does not conflict with those of another
      have hnew : ∀ j ≠ i, ∀ l ∈ ((S.after i (k (c.apply (S.world i)).1)
          (c.apply (S.world i)).2).proc i).held, ∀ l' ∈ (S.proc j).held, ¬ l.conflicts l' := by
        intro j hj l hl l' hl'
        have hmem := Proc.held_subset _ hl
        rw [proc_after, locks_apply] at hmem
        rcases mem_locksAfter hmem with hold | rfl
        · refine h i j hj.symm l ?_ l' hl'
          rwa [Proc.held, hprog]
        · exact hfree l (by rw [Proc.want, hprog]) j hj l' hl'
      intro a b hab l hl l' hl'
      by_cases ha : a = i
      · subst ha
        rw [proc_after_of_ne hab.symm] at hl'
        exact hnew b hab.symm l hl l' hl'
      · rw [proc_after_of_ne ha] at hl
        by_cases hb : b = i
        · subst hb
          exact fun hc => hnew a ha l' hl' l hl (conflicts_comm hc)
        · rw [proc_after_of_ne hb] at hl'
          exact h a b hab l hl l' hl'

/-- **Mutual exclusion** in every state that can be reached. -/
theorem exclusive {present : File → Bool} {bytes : File → Str}
    {jobs : ι → (Bool × Bool) × List Op} (hreach : Reachable Step (start present bytes jobs) S) :
    Exclusive S := by
  refine hreach.invariant (fun i j _ l hl => ?_) fun _ _ h hstep => exclusive_step h hstep
  exact absurd (Proc.held_subset _ hl) List.not_mem_nil

/-- Whenever a process is about to read it has a lock; whenever it is about to write it has a lock
for writing, in whose range no other process has a lock. -/
theorem guarded {present : File → Bool} {bytes : File → Str}
    {jobs : ι → (Bool × Bool) × List Op} (hreach : Reachable Step (start present bytes jobs) S)
    {c : Call} {k : c.Res → Io (List Answer)} (hprog : (S.proc i).prog = .call c k) :
    (∀ f n, c = .read f n → (S.proc i).held ≠ []) ∧
    ∀ f text, c = .write f text → ∃ l ∈ (S.proc i).held, l.kind = .write ∧
      ∀ j ≠ i, ∀ l' ∈ (S.proc j).held, ¬ l.conflicts l' := by
  have hordered := (orderly hreach i).prog
  have hheld : (S.proc i).held = (S.proc i).locks := by rw [Proc.held, hprog]
  rw [hprog] at hordered
  rw [hheld]
  constructor
  · rintro f n rfl
    exact hordered.1
  · rintro f text rfl
    obtain ⟨l, hl, hkind⟩ := hordered.1
    exact ⟨l, hl, hkind, fun j hj => exclusive hreach i j hj.symm l (hheld ▸ hl)⟩

/-- A process is about to write the data of a new record, while another one has a lock on the chain
of another key. -/
theorem append_guarded : ∃ (S : System (Fin 2)) (text : Str) (k : Nat → Io (List Answer)),
    (S.proc 0).prog = .call (.write .dat text) k ∧ (S.proc 1).held ≠ [] ∧
    ∃ l ∈ (S.proc 0).held, l.kind = .write ∧
      ∀ j ≠ 0, ∀ l' ∈ (S.proc j).held, ¬ l.conflicts l' := by
  have hstart : Reachable Step (start (fun _ => true) (fun f => (Layout.empty.world.get f).bytes)
      fun i : Fin 2 => ((false, false), [if i = 0 then
        .store "A$".toList "1".toList Flag.dbStore else .fetch "B".toList])) _ := .refl _
  -- the store makes fourteen calls before its first write
  have h1 := hstart.tail (step_call 0 rfl (no_held rfl))
  have h2 := h1.tail (step_call 0 rfl (no_held rfl))
  have h3 := h2.tail (step_call 0 rfl (no_held rfl))
  have h4 := h3.tail (step_call 0 rfl (no_held rfl))
  have h5 := h4.tail (step_call 0 rfl (no_held rfl))
  have h6 := h5.tail (step_call 0 rfl (no_held rfl))
  have h7 := h6.tail (step_call 0 rfl (no_held rfl))
  have h8 := h7.tail (step_call 0 rfl (no_held rfl))
  have h9 := h8.tail (step_call 0 rfl (no_held rfl))
  have h10 := h9.tail (step_call 0 rfl (no_held rfl))
  have h11 := h10.tail (step_call 0 rfl (no_held rfl))
  have h12 := h11.tail (step_call 0 rfl (no_held rfl))
  have h13 := h12.tail (step_call 0 rfl (no_held rfl))
  have h14 := h13.tail (step_call 0 rfl (no_held rfl))
  -- the fetch comes as far as its lock
  have h15 := h14.tail (step_call 1 rfl (no_lock rfl))
  have h16 := h15.tail (step_call 1 rfl (no_lock rfl))
  have h17 := h16.tail (step_call 1 rfl (no_lock rfl))
  have h18 := h17.tail (step_call 1 rfl fun l hl h hh => by
    obtain rfl : ⟨.idx, .read, 469, 1⟩ = l := Option.some.inj hl
    have hheld : h ∈ [⟨.dat, .write, 0, 0⟩, ⟨.idx, .write, 7, 1⟩] := hh
    revert h
    decide)
  have hguard := (guarded h18 (i := 0) rfl).2 _ _ rfl
  refine ⟨_, _, _, rfl, ?_, hguard⟩
  exact List.cons_ne_nil (⟨.idx, .read, 469, 1⟩ : Lock) []

end System

end UnixSys.Db
