import Toshokan.Lib.Sched

/-!
# Progress under a fair schedule

A party that waits in a loop moves, but it changes nothing that anybody else is waiting for. A schedule is fair if it
falls into rounds in each of which every party has a turn.

* `Progress` : every unfinished state offers some party a step that lowers a rank, and the steps of the others neither
  raise the rank nor take that step away;
* `Progress.rank_round_lt` : a round lowers the rank of an unfinished state;
* `Progress.over_of_rounds` : as many rounds as the rank bring the system to its end.
-/

namespace Toshokan.Lib

variable {σ τ : Type*}

/-- The system comes to its end (`Over`) by the steps that `Useful` names, from the states where `I` holds. -/
structure Progress (step : σ → τ → σ) (I Over : σ → Prop) (Useful : σ → τ → Prop) (rank : σ → Nat) : Prop where
  keep : ∀ s t, I s → I (step s t)
  keep_over : ∀ s t, I s → Over s → Over (step s t)
  exists_useful : ∀ s, I s → ¬ Over s → ∃ t, Useful s t
  lowers : ∀ s t, I s → Useful s t → rank (step s t) < rank s
  idle_rank : ∀ s t, I s → ¬ Useful s t → rank (step s t) ≤ rank s
  idle_useful : ∀ s t u, I s → ¬ Useful s t → Useful s u → Useful (step s t) u

/-- Every party has a turn. -/
def IsRound (ts : List τ) : Prop := ∀ t, t ∈ ts

namespace Progress

variable {step : σ → τ → σ} {I Over : σ → Prop} {Useful : σ → τ → Prop} {rank : σ → Nat}
  (h : Progress step I Over Useful rank)
include h

theorem keep_run {s : σ} (hs : I s) (ts : List τ) : I (run step s ts) :=
  run_induct step hs (fun s t hs => h.keep s t hs) ts

theorem over_run {s : σ} (hs : I s) (ho : Over s) (ts : List τ) : Over (run step s ts) :=
  (run_induct step (P := fun s => I s ∧ Over s) ⟨hs, ho⟩
    (fun s t hs => ⟨h.keep s t hs.1, h.keep_over s t hs.1 hs.2⟩) ts).2

theorem rank_step_le {s : σ} (hs : I s) (t : τ) : rank (step s t) ≤ rank s := by
  by_cases hu : Useful s t
  · exact (h.lowers s t hs hu).le
  · exact h.idle_rank s t hs hu

theorem rank_run_le {s : σ} (hs : I s) (ts : List τ) : rank (run step s ts) ≤ rank s := by
  induction ts generalizing s with
  | nil => exact le_rfl
  | cons t ts ih => exact (ih (h.keep s t hs)).trans (h.rank_step_le hs t)

/-- A schedule in which a party with a useful step has a turn: that step is still there when the turn comes, unless
another useful one came first. -/
theorem rank_run_lt {s : σ} (hs : I s) {u : τ} (hu : Useful s u) {ts : List τ} (hmem : u ∈ ts) :
    rank (run step s ts) < rank s := by
  induction ts generalizing s with
  | nil => cases hmem
  | cons t ts ih =>
      by_cases ht : Useful s t
      · exact (h.rank_run_le (h.keep s t hs) ts).trans_lt (h.lowers s t hs ht)
      · have hmem' : u ∈ ts := by
          rcases List.mem_cons.mp hmem with rfl | hmem
          · exact absurd hu ht
          · exact hmem
        exact (ih (h.keep s t hs) (h.idle_useful s t u hs ht hu) hmem').trans_le (h.idle_rank s t hs ht)

theorem rank_round_lt {s : σ} (hs : I s) (ho : ¬ Over s) {ts : List τ} (hts : IsRound ts) :
    rank (run step s ts) < rank s := by
  obtain ⟨u, hu⟩ := h.exists_useful s hs ho
  exact h.rank_run_lt hs hu (hts u)

/-- **Enough rounds bring the system to its end.** -/
theorem over_of_rounds {s : σ} (hs : I s) {rounds : List (List τ)} (hr : ∀ r ∈ rounds, IsRound r)
    (hn : rank s < rounds.length) : Over (run step s rounds.flatten) := by
  induction rounds generalizing s with
  | nil => exact absurd hn (Nat.not_lt_zero _)
  | cons r rounds ih =>
      rw [List.flatten_cons, run_append]
      by_cases ho : Over s
      · exact h.over_run (h.keep_run hs r) (h.over_run hs ho r) _
      · have hlt := h.rank_round_lt hs ho (hr r List.mem_cons_self)
        refine ih (h.keep_run hs r) (fun r' hr' => hr r' (List.mem_cons_of_mem r hr')) ?_
        rw [List.length_cons] at hn
        omega

end Progress

end Toshokan.Lib
