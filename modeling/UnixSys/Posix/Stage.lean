import UnixSys.Posix.Kernel

/-!
# Stage — commands that read to end of file

`Image.Finishes` runs an image alone on a given input: it reads the input to its
end, writes what it likes on the way, and exits. A `Stage` is an image that does
so on every input.
-/

namespace UnixSys

/-- The image, having read `input` with `rest` still to come and having written
`output`, sees end of file and exits with the output `out` after `n` steps. -/
inductive Image.Finishes (img : Image) : Nat → Str → Str → Bool → Str → Str → Prop
  | exit {input output : Str} : img input true output = .exit →
      Finishes img 0 [] input true output output
  | read {n : Nat} {b : Byte} {rest input output out : Str} : img input false output = .read →
      Finishes img n rest (input ++ [b]) false output out →
      Finishes img (n + 1) (b :: rest) input false output out
  | eof {n : Nat} {input output out : Str} : img input false output = .read →
      Finishes img n [] input true output out →
      Finishes img (n + 1) [] input false output out
  | write {n : Nat} {b : Byte} {rest input output out : Str} {eof : Bool} :
      img input eof output = .write b →
      Finishes img n rest input eof (output ++ [b]) out →
      Finishes img (n + 1) rest input eof output out

theorem Image.Finishes.output_prefix {img : Image} {n : Nat} {rest input output out : Str}
    {eof : Bool} (h : img.Finishes n rest input eof output out) : output <+: out := by
  induction h with
  | exit _ => exact List.prefix_rfl
  | read _ _ ih => exact ih
  | eof _ _ ih => exact ih
  | write _ _ ih => exact (List.prefix_append _ _).trans ih

/-- A command that, on every input, reads to end of file, writes finitely many
bytes and exits. -/
structure Stage where
  img : Image
  result : Str → Str
  steps : Str → Nat
  finishes : ∀ x, img.Finishes (steps x) x [] false [] (result x)

namespace Stage

/-- The image that reads all of its input, and then writes `f` of it. -/
def collect (f : Str → Str) : Image := fun input eof output =>
  if eof then
    match (f input).drop output.length with
    | [] => .exit
    | b :: _ => .write b
  else .read

theorem collect_write (f : Str → Str) (input rest output : Str) (h : f input = output ++ rest) :
    (collect f).Finishes rest.length [] input true output (f input) := by
  induction rest generalizing output with
  | nil =>
      rw [List.append_nil] at h
      rw [h]
      exact .exit (by simp [collect, h])
  | cons b rest ih =>
      refine .write (b := b) (by simp [collect, h]) (ih (output ++ [b]) ?_)
      rw [h, List.append_assoc, List.singleton_append]

theorem collect_read (f : Str → Str) (rest input : Str) :
    (collect f).Finishes (rest.length + 1 + (f (input ++ rest)).length) rest input false []
      (f (input ++ rest)) := by
  induction rest generalizing input with
  | nil =>
      rw [List.append_nil, List.length_nil, Nat.zero_add, Nat.add_comm]
      exact .eof (by simp [collect]) (collect_write f input (f input) [] rfl)
  | cons b rest ih =>
      have := ih (input ++ [b])
      rw [List.append_assoc, List.singleton_append] at this
      rw [List.length_cons, Nat.add_right_comm (rest.length + 1)]
      exact .read (by simp [collect]) this

/-- The stage that computes `f`. -/
def ofFun (f : Str → Str) : Stage where
  img := collect f
  result := f
  steps x := x.length + 1 + (f x).length
  finishes x := collect_read f x []

end Stage

/-! ## Children that become a stage -/

section
variable {W α : Type}

/-- In at most `n` calls, from the table `T`, the child executes the stage `g`
with the table `T'`, and `execvp` succeeds. -/
inductive Prog.Execs (env : Env W) (g : Stage) (T' : FdTable) : Nat → Prog α → FdTable → Prop
  | close {n : Nat} {T : FdTable} {fd : Int} {k : Unit → Prog α} :
      Execs env g T' n (k ()) (T.close fd) → Execs env g T' (n + 1) (.call (.close fd) k) T
  | dup2 {n : Nat} {T : FdTable} {old new : Int} {k : Unit → Prog α} :
      Execs env g T' n (k ()) (T.dup2 old new) →
      Execs env g T' (n + 1) (.call (.dup2 old new) k) T
  | glob {n : Nat} {T : FdTable} {pat : Str} {k : Option (List Str) → Prog α} :
      (∀ w, Execs env g T' n (k (env.glob w pat)) T) →
      Execs env g T' (n + 1) (.call (.glob pat) k) T
  | execvp {n : Nat} {argv : List Str} {k : Prog α} :
      (∀ w, ∃ w', env.exec w (T'.launch argv) = some (g.img, w')) →
      Execs env g T' n (.execvp argv k) T'

end

end UnixSys
