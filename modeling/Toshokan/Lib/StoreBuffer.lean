import Mathlib.Data.List.Basic
import Mathlib.Logic.Function.Basic

/-!
# Store buffers

The memory of an x86 processor as a program sees it: a store goes to the end of the processor's own buffer, buffers
are written to memory from the front at any time, and a processor reads the youngest of its own stores to a location
before it looks into memory.

* `Cells V` : a memory over the locations `A`, `Store V` : one store to it;
* `view m b` : what the processor with the buffer `b` sees; also the memory once `b` has been written to it;
* `view_eq_of_forall_ne`, `view_congr` : where nothing is buffered the memory is seen.
-/

namespace Toshokan.Lib

variable {A : Type*} [DecidableEq A] {V : A → Type*}

/-- A memory: at every location a value of that location's type. -/
abbrev Cells (V : A → Type*) := (a : A) → V a

abbrev Store (V : A → Type*) := (a : A) × V a

def put (m : Cells V) (w : Store V) : Cells V := Function.update m w.1 w.2

/-- What the processor with the buffer `b` sees. -/
def view (m : Cells V) (b : List (Store V)) : Cells V := b.foldl put m

@[simp] theorem view_nil (m : Cells V) : view m [] = m := rfl

theorem view_cons (m : Cells V) (w : Store V) (b : List (Store V)) : view m (w :: b) = view (put m w) b := rfl

theorem view_append (m : Cells V) (b c : List (Store V)) : view m (b ++ c) = view (view m b) c :=
  List.foldl_append ..

theorem put_self (m : Cells V) (a : A) (v : V a) : put m ⟨a, v⟩ a = v := Function.update_self ..

theorem put_of_ne {m : Cells V} {w : Store V} {a : A} (h : w.1 ≠ a) : put m w a = m a :=
  Function.update_of_ne (Ne.symm h) _ _

theorem view_concat (m : Cells V) (b : List (Store V)) (a : A) (v : V a) : view m (b ++ [⟨a, v⟩]) a = v := by
  rw [view_append]
  exact put_self _ a v

theorem view_eq_of_forall_ne {m : Cells V} {b : List (Store V)} {a : A} (h : ∀ w ∈ b, w.1 ≠ a) : view m b a = m a := by
  induction b generalizing m with
  | nil => rfl
  | cons w b ih =>
      rw [view_cons, ih fun w' hw' => h w' (List.mem_cons_of_mem w hw')]
      exact put_of_ne (h w List.mem_cons_self)

theorem view_congr {m m' : Cells V} (b : List (Store V)) {a : A} (h : m a = m' a) : view m b a = view m' b a := by
  induction b generalizing m m' with
  | nil => exact h
  | cons w b ih =>
      rw [view_cons, view_cons]
      apply ih
      by_cases hw : w.1 = a
      · subst hw
        rw [put, put, Function.update_self, Function.update_self]
      · rw [put_of_ne hw, put_of_ne hw, h]

end Toshokan.Lib
