import Mathlib.Data.List.Basic
import Mathlib.Data.List.Infix

/-!
# Runs of an interleaved system

A system of parties `τ` over a state `σ` is a total `step : σ → τ → σ`: the party named moves once, and a party that
cannot move leaves the state alone. An interleaving is a schedule, a list of parties.

* `run step s ts` : the state after the schedule `ts`;
* `Always step P s ts` : `P` in every state the schedule passes through, `Meets step C s ts` : every single step of it
  is taken in a state where `C` allows it;
* `run_induct`, `run_induct_of` : the invariant rule, for all runs and for the runs that meet a condition;
* `run_simulates` : what answers every single step of one system by some steps of another answers all its runs.
-/

namespace Toshokan.Lib

variable {σ τ : Type*} (step : σ → τ → σ)

/-- The state after the schedule `ts`, from `s`. -/
def run (s : σ) (ts : List τ) : σ := ts.foldl step s

@[simp] theorem run_nil (s : σ) : run step s [] = s := rfl

@[simp] theorem run_cons (s : σ) (t : τ) (ts : List τ) : run step s (t :: ts) = run step (step s t) ts := rfl

theorem run_append (s : σ) (ts us : List τ) : run step s (ts ++ us) = run step (run step s ts) us :=
  List.foldl_append ..

theorem run_concat (s : σ) (ts : List τ) (t : τ) : run step s (ts ++ [t]) = step (run step s ts) t := by
  rw [run_append, run_cons, run_nil]

/-- **The invariant rule.** -/
theorem run_induct {P : σ → Prop} {s : σ} (h0 : P s) (hstep : ∀ s t, P s → P (step s t)) :
    ∀ ts, P (run step s ts) := by
  intro ts
  induction ts using List.reverseRecOn with
  | nil => exact h0
  | append_singleton ts t ih =>
      rw [run_concat]
      exact hstep _ _ ih

/-- `P` holds in every state the schedule passes through, the last one included. -/
def Always (P : σ → Prop) (s : σ) (ts : List τ) : Prop := ∀ us, us <+: ts → P (run step s us)

/-- Every step of the schedule is taken in a state where `C` holds of it. -/
def Meets (C : σ → τ → Prop) (s : σ) (ts : List τ) : Prop := ∀ us t, us ++ [t] <+: ts → C (run step s us) t

theorem Always.after {P : σ → Prop} {s : σ} {ts us : List τ} {t : τ} (h : Always step P s ts)
    (hu : us ++ [t] <+: ts) : P (step (run step s us) t) := by
  have := h _ hu
  rwa [run_concat] at this

/-- **The invariant rule for the runs that meet a condition.** -/
theorem run_induct_of {P : σ → Prop} {C : σ → τ → Prop} {s : σ} (h0 : P s)
    (hstep : ∀ s t, P s → C s t → P (step s t)) : ∀ ts, Meets step C s ts → P (run step s ts) := by
  intro ts
  induction ts using List.reverseRecOn with
  | nil => exact fun _ => h0
  | append_singleton ts t ih =>
      intro hC
      rw [run_concat]
      refine hstep _ _ (ih fun us u hu => hC us u ?_) (hC ts t (List.prefix_refl _))
      exact hu.trans (List.prefix_append _ _)

theorem Meets.mono {C : σ → τ → Prop} {s : σ} {ts us : List τ} (h : Meets step C s ts) (hu : us <+: ts) :
    Meets step C s us := fun vs t hv => h vs t (hv.trans hu)

theorem meets_nil {C : σ → τ → Prop} (s : σ) : Meets step C s [] := by
  intro us t hu
  have hnil : us ++ [t] = [] := List.prefix_nil.mp hu
  simp at hnil

theorem meets_cons {C : σ → τ → Prop} {s : σ} {t : τ} {ts : List τ} (ht : C s t) (hts : Meets step C (step s t) ts) :
    Meets step C s (t :: ts) := by
  intro us u hu
  cases us with
  | nil =>
      obtain rfl : u = t := (List.cons_prefix_cons.mp hu).1
      exact ht
  | cons v us =>
      obtain ⟨rfl, hu'⟩ := List.cons_prefix_cons.mp hu
      exact hts us u hu'

theorem meets_append {C : σ → τ → Prop} {s : σ} {us vs : List τ} (hu : Meets step C s us)
    (hv : Meets step C (run step s us) vs) : Meets step C s (us ++ vs) := by
  induction us generalizing s with
  | nil => exact hv
  | cons u us ih =>
      refine meets_cons step (hu [] u ?_) (ih (fun ws t hw => hu (u :: ws) t ?_) hv)
      · exact List.cons_prefix_cons.mpr ⟨rfl, List.nil_prefix⟩
      · exact List.cons_prefix_cons.mpr ⟨rfl, hw⟩

theorem meets_concat {C : σ → τ → Prop} {s : σ} {ts : List τ} {t : τ} (h : Meets step C s ts)
    (ht : C (run step s ts) t) : Meets step C s (ts ++ [t]) :=
  meets_append step h (meets_cons step ht (meets_nil step _))

theorem meets_of_forall {C : σ → τ → Prop} {ts : List τ} (h : ∀ t ∈ ts, ∀ s, C s t) (s : σ) : Meets step C s ts := by
  intro us t hu
  exact h t (hu.subset (List.mem_append_right us (List.mem_singleton_self t))) _

theorem Meets.after {C : σ → τ → Prop} {s : σ} {us vs : List τ} (h : Meets step C s (us ++ vs)) :
    Meets step C (run step s us) vs := by
  intro ws t hw
  rw [← run_append]
  apply h
  rw [List.append_assoc]
  exact (List.prefix_append_right_inj us).mpr hw

theorem always_of_meets {P : σ → Prop} {C : σ → τ → Prop} {s : σ} (h0 : P s)
    (hstep : ∀ s t, P s → C s t → P (step s t)) {ts : List τ} (hC : Meets step C s ts) : Always step P s ts :=
  fun us hu => run_induct_of step h0 hstep us (hC.mono step hu)

/-- **The simulation rule.** A step may be answered by several steps, or by none. -/
theorem run_simulates {σ' τ' : Type*} (step' : σ' → τ' → σ') {R : σ → σ' → Prop} {s : σ} {t : σ'} (h0 : R s t)
    (hstep : ∀ s t u, R s t → ∃ us, R (step s u) (run step' t us)) (ts : List τ) :
    ∃ us, R (run step s ts) (run step' t us) := by
  induction ts using List.reverseRecOn with
  | nil => exact ⟨[], h0⟩
  | append_singleton ts u ih =>
      obtain ⟨us, hus⟩ := ih
      obtain ⟨vs, hvs⟩ := hstep _ _ u hus
      refine ⟨us ++ vs, ?_⟩
      rw [run_concat, run_append]
      exact hvs

end Toshokan.Lib
