import Mathlib.Data.List.Basic

/-!
# Walking a table until it ends

The loop `for (i = 0;; i++) { x = next(i); if (!x) break; if (!body(x)) return false; } return true;` over a state.

* `scan` : the loop, for a `next` that ends by some index;
* `entries` : what it can come to, in order; `sweep` : the bodies over a list, up to the first that fails;
* `scan_eq_sweep` : the loop is the sweep over the entries; `sweep_induct` : its invariants;
* `entries_eq_map` : the entries of a table without an early end;
* `find?_reverse_of_last` : the last of a table's entries with a property;
* `upto` : what a sweep comes to, the entry that fails among it.
-/

namespace Toshokan.Lib

variable {α σ : Type*}

def scan (next : Nat → Option α) (body : α → σ → Bool × σ) (bound : Nat) (hb : ∀ i, bound ≤ i → next i = none)
    (i : Nat) (s : σ) : Bool × σ :=
  match h : next i with
  | none => (true, s)
  | some x => if (body x s).1 = true then scan next body bound hb (i + 1) (body x s).2 else body x s
termination_by bound - i
decreasing_by
  have hi : i < bound := by
    by_contra hi
    rw [hb i (by omega)] at h
    cases h
  omega

/-- The entries from index `i` on, at most `n` of them. -/
def entries (next : Nat → Option α) : Nat → Nat → List α
  | 0, _ => []
  | n + 1, i =>
      match next i with
      | none => []
      | some x => x :: entries next n (i + 1)

/-- The bodies one after another, up to the first that fails. -/
def sweep (body : α → σ → Bool × σ) : List α → σ → Bool × σ
  | [], s => (true, s)
  | x :: xs, s => if (body x s).1 = true then sweep body xs (body x s).2 else body x s

theorem scan_eq_sweep (next : Nat → Option α) (body : α → σ → Bool × σ) (bound : Nat)
    (hb : ∀ i, bound ≤ i → next i = none) (i : Nat) (s : σ) :
    scan next body bound hb i s = sweep body (entries next (bound - i) i) s := by
  generalize hn : bound - i = n
  induction n generalizing i s with
  | zero =>
      rw [scan]
      split
      · rfl
      · rename_i x hx
        rw [hb i (by omega)] at hx
        cases hx
  | succ n ih =>
      rw [scan, entries]
      split
      · rename_i hx
        rw [hx]
        rfl
      · rename_i x hx
        rw [hx, ih (i + 1) (body x s).2 (by omega)]
        rfl

theorem sweep_induct {P : σ → Prop} {body : α → σ → Bool × σ} (hstep : ∀ x s, P s → P (body x s).2) (xs : List α) {s : σ}
    (h : P s) : P (sweep body xs s).2 := by
  induction xs generalizing s with
  | nil => exact h
  | cons x xs ih =>
      rw [sweep]
      split
      · exact ih (hstep x s h)
      · exact hstep x s h

theorem entries_eq_map {next : Nat → Option α} {f : Nat → α} (n i : Nat)
    (h : ∀ j, i ≤ j → j < i + n → next j = some (f j)) : entries next n i = (List.range' i n).map f := by
  induction n generalizing i with
  | zero => rfl
  | succ n ih =>
      rw [entries, h i (Nat.le_refl i) (by omega), List.range'_succ, List.map_cons,
        ih (i + 1) fun j h1 h2 => h j (by omega) (by omega)]

theorem next_of_getElem?_entries {next : Nat → Option α} {n i j : Nat} {x : α} (h : (entries next n i)[j]? = some x) :
    next (i + j) = some x := by
  induction n generalizing i j with
  | zero => simp [entries] at h
  | succ n ih =>
      rw [entries] at h
      split at h
      · simp at h
      · rename_i y hy
        cases j with
        | zero => exact hy.trans h
        | succ j =>
            have := ih (i := i + 1) (j := j) h
            rw [show i + (j + 1) = i + 1 + j by omega]
            exact this

/-- Of the entries that satisfy `p`, the one with the highest index. -/
theorem find?_reverse_of_last {f : Nat → Option α} {p : α → Bool} {n i : Nat} {x : α} (hi : i < n) (hx : f i = some x)
    (hp : p x = true) (hlast : ∀ j, i < j → j < n → ∀ y, f j = some y → p y = false) :
    ((List.range n).filterMap f).reverse.find? p = some x := by
  induction n with
  | zero => exact absurd hi (Nat.not_lt_zero i)
  | succ n ih =>
      rw [List.range_succ, List.filterMap_append, List.reverse_append, List.find?_append]
      by_cases hin : i = n
      · subst hin
        simp [hx, hp]
      · have hrest := ih (by omega) fun j h1 h2 => hlast j h1 (by omega)
        have hnone : ((List.filterMap f [n]).reverse.find? p) = none := by
          rw [List.find?_eq_none]
          intro y hy
          have hy : f n = some y := by simpa using hy
          rw [hlast n (by omega) (by omega) y hy]
          decide
        rw [hnone, hrest]
        rfl

/-- A list up to the first member that does not satisfy `p`, with that member. -/
def upto (p : α → Bool) : List α → List α
  | [] => []
  | x :: xs => x :: if p x = true then upto p xs else []

theorem upto_eq_self {p : α → Bool} {xs : List α} (h : ∀ x ∈ xs, p x = true) : upto p xs = xs := by
  induction xs with
  | nil => rfl
  | cons x xs ih => rw [upto, if_pos (h x List.mem_cons_self), ih fun y hy => h y (List.mem_cons_of_mem x hy)]

end Toshokan.Lib
