import Toshokan.Session.Exit

/-!
# The verdict of the sample

In `sample/friend.cc` a core adds 1 to `sync_flag` after its `_OFFLOAD`, as the last thing in `friend_main`;
`sample/hakase.cc` leaves its loop and returns `sync_flag == cpunum`, where `cpunum` is what `boot` returned.

* `syncFlag` : the counter; `exists_begun` : a run in which all cores begin first;
* `sample_verdict` : when the sample can pass, and when it passes in every run.
-/

namespace Toshokan.Session

open Friend (Boot)
open Offload (Party Program)

variable {B : Boot} {S H L : Type} (P : Program (Fin B.cores) S H L) {up : Fin B.cores → Bool} {h₀ : H}
  {loc₀ : Fin B.cores → L} {st : State B S H L} {c : Fin B.cores}

/-- `sync_flag`: a core adds to it with the step that takes it back from `friend_main`. -/
def syncFlag (st : State B S H L) : Nat := Lib.count Friend.Phase.returned st.boot.phase

theorem syncFlag_eq_iff : syncFlag st = B.cores ↔ ∀ c, (st.boot.phase c).returned = true := by
  rw [← Lib.count_eq_card_iff, Fintype.card_fin]
  rfl

/-- The cores of `cs` have begun, and have not come further. -/
structure Begun (cs : List (Fin B.cores)) (st : State B S H L) : Prop where
  started : ∀ c ∈ cs, st.boot.phase c = .ctor 0 ∨ st.boot.phase c = .call
  rest : ∀ c, c ∉ cs → st.boot.phase c = .start

theorem Begun.clean {cs : List (Fin B.cores)} (h : Begun cs st) (p : Party (Fin B.cores)) : Clean st p := by
  intro c _ r hr
  by_cases hc : c ∈ cs
  · rcases h.started c hc with hph | hph <;> rw [hph] at hr <;> cases hr
  · rw [h.rest c hc] at hr
    cases hr

variable [DecidableEq S]

theorem Begun.step {cs : List (Fin B.cores)} (h : Begun cs st) (hup : up c = true) (hc : c ∉ cs) :
    Begun (cs ++ [c]) (step P up st (.friend c)) := by
  have hph := h.rest c hc
  have hin : ¬ InMain P st c := by
    rintro ⟨hmain, -⟩
    rw [hph] at hmain
    cases hmain
  rw [Session.step, if_pos hup, stepCore, if_neg hin]
  refine ⟨fun c' hc' => ?_, fun c' hc' => ?_⟩
  · by_cases he : c' = c
    · subst he
      dsimp only
      rw [phase_boot_self, hph, nextPhase]
      split
      · exact .inl rfl
      · exact .inr rfl
    · dsimp only
      rw [phase_boot_of_ne he]
      exact h.started c' ((List.mem_append.mp hc').resolve_right fun hm => he (List.mem_singleton.mp hm))
  · have hne : c' ≠ c := fun he => hc' (by rw [he]; exact List.mem_append_right _ (List.mem_singleton_self c))
    dsimp only
    rw [phase_boot_of_ne hne]
    exact h.rest c' fun hm => hc' (List.mem_append_left _ hm)

/-- All cores may begin before anything else happens. -/
theorem exists_begun (hup : ∀ c, up c = true) {cs : List (Fin B.cores)} (hcs : cs.Nodup) :
    Begun cs (Lib.run (step P up) (init P h₀ loc₀) (cs.map .friend)) ∧
      Lib.Meets (step P up) Clean (init P h₀ loc₀) (cs.map .friend) := by
  induction cs using List.reverseRecOn with
  | nil => exact ⟨⟨fun _ hc => absurd hc List.not_mem_nil, fun _ _ => rfl⟩, Lib.meets_nil _ _⟩
  | append_singleton cs c ih =>
      obtain ⟨hbegun, hclean⟩ := ih (List.nodup_append.mp hcs).1
      have hc : c ∉ cs := fun hc => (List.nodup_append.mp hcs).2.2 c hc c (List.mem_singleton_self c) rfl
      rw [List.map_append, List.map_singleton, Lib.run_concat]
      exact ⟨hbegun.step P (hup c) hc, Lib.meets_concat _ hclean (hbegun.clean _)⟩

/-- Then they are all through when hakase leaves its loop. -/
theorem exists_passed (hup : ∀ c, up c = true) (c : Fin B.cores) (h : H) (loc : Fin B.cores → L) :
    ∃ ts, (Lib.run (step P up) (init P h loc) ts).main = .exited ∧
      syncFlag (Lib.run (step P up) (init P h loc) ts) = B.cores := by
  let us : List (Party (Fin B.cores)) := (List.finRange B.cores).map .friend
  obtain ⟨hbegun, hclean⟩ : Begun _ (Lib.run (step P up) (init P h loc) us) ∧
      Lib.Meets (step P up) Clean (init P h loc) us := exists_begun P hup (List.nodup_finRange B.cores)
  have hus : Inv P up h loc (Lib.run (step P up) (init P h loc) us) := inv_run P us
  have hall : ∀ c, ((Lib.run (step P up) (init P h loc) us).boot.phase c).begun = true := by
    intro c
    rcases hbegun.started c (List.mem_finRange c) with hph | hph <;> rw [hph] <;> rfl
  have hexit := exited_fairRounds P (hup c) hus
  rw [← Lib.run_append] at hexit
  have hfin : B.Finalised (Lib.run (step P up) (init P h loc) (us ++ (fairRounds B P).flatten)).boot :=
    finalised_run P (Lib.meets_append _ hclean (clean_of_begun P hus hall _))
  have hinv : Inv P up h loc (Lib.run (step P up) (init P h loc) (us ++ (fairRounds B P).flatten)) := inv_run P _
  exact ⟨_, hexit, syncFlag_eq_iff.mpr (hinv.returned_of_exited P hfin hexit)⟩

/-- **The verdict of the sample.** It can pass iff `boot` has counted at least one core and all those it has counted come
up; and whenever it comes to a verdict it passes iff there is no more than one core, or none comes up. -/
theorem sample_verdict (B : Boot) (P : Program (Fin B.cores) S H L) (up : Fin B.cores → Bool) (h : H)
    (loc : Fin B.cores → L) :
    ((∃ ts, (Lib.run (step P up) (init P h loc) ts).main = .exited ∧
      syncFlag (Lib.run (step P up) (init P h loc) ts) = B.cores) ↔ 0 < B.cores ∧ ∀ c, up c = true) ∧
    ((∀ ts, (Lib.run (step P up) (init P h loc) ts).main = .exited →
      syncFlag (Lib.run (step P up) (init P h loc) ts) = B.cores) ↔ B.cores ≤ 1 ∨ ∀ c, up c = false) := by
  refine ⟨⟨?_, ?_⟩, ?_, ?_⟩
  · rintro ⟨ts, hexit, hflag⟩
    obtain ⟨c, -⟩ := up_of_exited P hexit
    have hinv : Inv P up h loc (Lib.run (step P up) (init P h loc) ts) := inv_run P ts
    refine ⟨c.pos, fun c => hinv.up_of_begun P fun hstart => ?_⟩
    have hret := syncFlag_eq_iff.mp hflag c
    rw [hstart] at hret
    cases hret
  · rintro ⟨hpos, hup⟩
    exact exists_passed P hup ⟨0, hpos⟩ h loc
  · intro hall
    by_contra hnot
    obtain ⟨hcores, hup⟩ := not_or.mp hnot
    obtain ⟨w, hw⟩ := not_forall.mp hup
    obtain ⟨ts, hexit, hothers⟩ := exists_exit_alone P up (Bool.eq_true_of_not_eq_false hw) h loc
    have : Nontrivial (Fin B.cores) := Fin.nontrivial_iff_two_le.mpr (by omega)
    obtain ⟨c, hc⟩ := exists_ne w
    have hret := syncFlag_eq_iff.mp (hall ts hexit) c
    rw [(hothers c hc).1] at hret
    cases hret
  · rintro (hcores | hup) ts hexit
    · have hinv : Inv P up h loc (Lib.run (step P up) (init P h loc) ts) := inv_run P ts
      refine syncFlag_eq_iff.mpr (hinv.returned_of_exited P (finalised_run P fun us p _ c _ => ?_) hexit)
      have hus : Inv P up h loc (Lib.run (step P up) (init P h loc) us) := inv_run P us
      obtain ⟨vs, hvs⟩ := hus.boot
      exact Boot.notEarly_of_cores_le hcores (hvs ▸ Boot.counts_run vs) c
    · obtain ⟨c, hc⟩ := up_of_exited P hexit
      rw [hup c] at hc
      cases hc

end Toshokan.Session
