import Mathlib.Data.Finset.Basic
import Mathlib.Data.List.Nodup

/-!
# Resources held

A program acquires resources, with or without success, and releases them.

* `Ledger` : the resources held, and the releases so far; `acquire`, `release` : with what is held after them;
* `acquireAll`, `releaseAll` : a loop of either; `released_releaseAll` : a loop that releases different resources finds
  those held that were held before it.
-/

namespace Toshokan.Lib

/-- The resources held, and the resources released so far, each with whether it was held then. -/
structure Ledger (α : Type*) where
  held : Finset α
  released : List (α × Bool)

namespace Ledger

variable {α : Type*} [DecidableEq α] (k : Ledger α)

def acquire (r : α) (ok : Bool) : Ledger α := if ok = true then { k with held := insert r k.held } else k

def release (r : α) : Ledger α := ⟨k.held.erase r, k.released ++ [(r, decide (r ∈ k.held))]⟩

def acquireAll (ok : α → Bool) (rs : List α) : Ledger α := rs.foldl (fun k r => k.acquire r (ok r)) k

def releaseAll (rs : List α) : Ledger α := rs.foldl release k

@[simp] theorem mem_acquire {r x : α} {ok : Bool} : x ∈ (k.acquire r ok).held ↔ x ∈ k.held ∨ ok = true ∧ x = r := by
  unfold acquire
  split
  · rename_i h
    rw [Finset.mem_insert, h]
    tauto
  · rename_i h
    tauto

@[simp] theorem mem_release {r x : α} : x ∈ (k.release r).held ↔ x ∈ k.held ∧ x ≠ r := by
  unfold release
  rw [Finset.mem_erase]
  exact and_comm

@[simp] theorem mem_acquireAll {ok : α → Bool} {rs : List α} {x : α} :
    x ∈ (k.acquireAll ok rs).held ↔ x ∈ k.held ∨ x ∈ rs ∧ ok x = true := by
  unfold acquireAll
  induction rs generalizing k with
  | nil => simp
  | cons r rs ih =>
      rw [List.foldl_cons, ih, mem_acquire, List.mem_cons]
      constructor
      · rintro ((h | ⟨hok, rfl⟩) | ⟨h, hok⟩)
        · exact .inl h
        · exact .inr ⟨.inl rfl, hok⟩
        · exact .inr ⟨.inr h, hok⟩
      · rintro (h | ⟨rfl | h, hok⟩)
        · exact .inl (.inl h)
        · exact .inl (.inr ⟨hok, rfl⟩)
        · exact .inr ⟨h, hok⟩

@[simp] theorem mem_releaseAll {rs : List α} {x : α} : x ∈ (k.releaseAll rs).held ↔ x ∈ k.held ∧ x ∉ rs := by
  unfold releaseAll
  induction rs generalizing k with
  | nil => simp
  | cons r rs ih =>
      rw [List.foldl_cons, ih, mem_release, List.mem_cons]
      tauto

theorem releaseAll_append (rs rs' : List α) : k.releaseAll (rs ++ rs') = (k.releaseAll rs).releaseAll rs' :=
  List.foldl_append ..

theorem released_releaseAll {rs : List α} (h : rs.Nodup) :
    (k.releaseAll rs).released = k.released ++ rs.map fun r => (r, decide (r ∈ k.held)) := by
  unfold releaseAll
  induction rs generalizing k with
  | nil => simp
  | cons r rs ih =>
      obtain ⟨hr, hnd⟩ := List.nodup_cons.mp h
      have hrest : ∀ x ∈ rs, decide (x ∈ (k.release r).held) = decide (x ∈ k.held) := by
        intro x hx
        have hne : x ≠ r := by
          rintro rfl
          exact hr hx
        simp [hne]
      rw [List.foldl_cons, ih _ hnd, List.map_cons, release, List.append_assoc, List.singleton_append]
      congr 2
      apply List.map_congr_left
      intro x hx
      rw [← hrest x hx]
      rfl

end Ledger
end Toshokan.Lib
