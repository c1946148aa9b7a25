import Toshokan.Friend.Stop
import Toshokan.Session.Ends

/-!
# What is done when hakase leaves its loop

The flag tells hakase that all cores are through if no core compared the counters before the others had begun. A core
that begins later finds nobody to answer its `_OFFLOAD`.

* `Clean` : a step that does not find the counters equal too early; `clean_exit` : then hakase leaves with everything
  done, once and in order;
* `exit_strands_core` : with another core there is always a run that is not clean, after which a core's first `_OFFLOAD`
  never returns.
-/

namespace Toshokan.Session

open Friend (Boot)
open Offload (Party Program Finished executions acquired sitesOf Serial)

variable {B : Boot} {S H L : Type} (P : Program (Fin B.cores) S H L) {up : Fin B.cores → Bool} {h₀ : H}
  {loc₀ : Fin B.cores → L} {st : State B S H L} {c : Fin B.cores}

/-! ## Hakase out of its loop -/

/-- Hakase leaves its loop after the destructors. -/
theorem Inv.finis_of_exited (h : Inv P up h₀ loc₀ st) (hfin : B.Finalised st.boot) (hexit : st.main = .exited) :
    0 < st.boot.finis := hfin.flag (beq_iff_eq.mp (h.stopped hexit))

theorem Inv.returned_of_exited (h : Inv P up h₀ loc₀ st) (hfin : B.Finalised st.boot) (hexit : st.main = .exited)
    (c : Fin B.cores) : (st.boot.phase c).returned = true :=
  Friend.Phase.returned_of_counted (hfin.last (h.finis_of_exited P hfin hexit) c)

/-- Hakase is out of its loop and has not executed the first block of core `c`. -/
structure Stranded (h₀ : H) (loc₀ : Fin B.cores → L) (c : Fin B.cores) (st : State B S H L) : Prop where
  inv : Inv P (fun _ => true) h₀ loc₀ st
  exited : st.main = .exited
  none : executions (c, 0) st.off.log = 0

theorem Stranded.not_finished (hst : Stranded P h₀ loc₀ c st) (hc : P.prog c ≠ []) : ¬ Finished P st.off c := by
  intro hf
  have hpos : 0 < (st.off.friend c).done := by
    rw [hf.2]
    exact List.length_pos_iff.mpr hc
  have hone := Offload.executions_of_done P hst.inv.off hpos
  rw [hst.none] at hone
  cases hone

/-! ## A clean exit -/

variable [DecidableEq S]

/-- The step of `p` does not find `returned_count == init_count` before all cores have begun. -/
def Clean (st : State B S H L) (p : Party (Fin B.cores)) : Prop := ∀ c, p = .friend c → B.NotEarly st.boot c

variable (up) in
theorem boot_step (st : State B S H L) (p : Party (Fin B.cores)) :
    (step P up st p).boot = st.boot ∨ ∃ c, p = .friend c ∧ (step P up st p).boot = B.step st.boot c := by
  cases p with
  | hakase =>
      rw [step, stepHakase]
      split <;> exact .inl rfl
  | friend c =>
      rw [step, stepCore]
      split
      · split
        · exact .inl rfl
        · exact .inr ⟨c, rfl, rfl⟩
      · exact .inl rfl

theorem finalised_run {ts : List (Party (Fin B.cores))}
    (hclean : Lib.Meets (step P up) Clean (init P h₀ loc₀) ts) :
    B.Finalised (Lib.run (step P up) (init P h₀ loc₀) ts).boot := by
  have hinv := Lib.run_induct_of (step P up) (s := init P h₀ loc₀)
    (P := fun st => B.Counts st.boot ∧ B.Ranks st.boot ∧ B.Finalised st.boot)
    ⟨Boot.counts_init, Boot.ranks_init, Boot.finalised_init⟩ (fun st p hst hp => ?_) ts hclean
  · exact hinv.2.2
  · rcases boot_step P up st p with hb | ⟨c, hc, hb⟩
    · rw [hb]
      exact hst
    · rw [hb]
      exact ⟨Boot.counts_step _ c hst.1, Boot.ranks_step _ c hst.1 hst.2.1,
        Boot.finalised_step _ c hst.1 hst.2.1 hst.2.2 (hp c hc)⟩

/-- **A clean exit.** In every session in which no core finds `returned_count == init_count` before all have begun,
hakase leaves its loop when all cores are back from `friend_main` and the destructors have been run, once: every
block has been executed once, and hakase's state and the cores' are those of running the blocks one after another in
the order in which `_lock` was acquired. -/
theorem clean_exit (B : Boot) (P : Program (Fin B.cores) S H L) (up : Fin B.cores → Bool) (h : H) (loc : Fin B.cores → L)
    (ts : List (Party (Fin B.cores))) (hclean : Lib.Meets (step P up) Clean (init P h loc) ts)
    (hexit : (Lib.run (step P up) (init P h loc) ts).main = .exited) :
    let st := Lib.run (step P up) (init P h loc) ts
    (∀ c, (st.boot.phase c).returned = true ∧ Finished P st.off c) ∧ st.boot.finis = 1 ∧
    (∀ i n, n < (P.prog i).length → executions (i, n) st.off.log = 1) ∧
    st.off.h = ((Serial.init P h loc).runs P (acquired st.off.log)).h ∧
    st.off.loc = ((Serial.init P h loc).runs P (acquired st.off.log)).loc ∧
    ∀ i, sitesOf i (acquired st.off.log) = P.prog i := by
  intro st
  have hinv : Inv P up h loc st := inv_run P ts
  have hfin : B.Finalised st.boot := finalised_run P hclean
  have hret := hinv.returned_of_exited P hfin hexit
  have hdone : ∀ c, Finished P st.off c := fun c => hinv.after c (hret c)
  refine ⟨fun c => ⟨hret c, hdone c⟩, Nat.le_antisymm hfin.once (hinv.finis_of_exited P hfin hexit), fun i n hn => ?_,
    Offload.finished_serial P hinv.off hdone⟩
  apply Offload.executions_of_done P hinv.off
  rw [(hdone i).2]
  exact hn

theorem clean_of_begun (hinv : Inv P up h₀ loc₀ st) (hall : ∀ c, (st.boot.phase c).begun = true)
    (ts : List (Party (Fin B.cores))) : Lib.Meets (step P up) Clean st ts := by
  induction ts generalizing st with
  | nil => exact Lib.meets_nil _ _
  | cons p ts ih =>
      refine Lib.meets_cons _ (fun c _ r _ _ => ?_) (ih (inv_step P hinv p) fun c => ?_)
      · obtain ⟨us, hus⟩ := hinv.boot
        have hcount : B.Counts st.boot := hus ▸ Boot.counts_run us
        exact hcount.initCount_eq_cores_iff.mpr hall
      · rcases boot_step P up st p with hb | ⟨c', -, hb⟩
        · rw [hb]
          exact hall c
        · rw [hb]
          by_cases hc : c = c'
          · subst hc
            rw [phase_boot_self]
            exact begun_next (hall c)
          · rw [phase_boot_of_ne hc]
            exact hall c

/-- Two cores that both begin before anything else happens. -/
theorem clean_exit_pair :
    ∃ ts,
      let st := Lib.run (step pairProgram fun _ => true) (init pairProgram 0 fun _ => ()) (.friend pair0 :: .friend pair1 :: ts)
      st.main = .exited ∧ st.boot.finis = 1 ∧ Finished pairProgram st.off pair0 ∧ Finished pairProgram st.off pair1 := by
  have hbegun : Inv pairProgram (fun _ => true) 0 (fun _ => ())
      (Lib.run (step pairProgram fun _ => true) (init pairProgram 0 fun _ => ()) [.friend pair0, .friend pair1]) :=
    inv_run pairProgram _
  obtain ⟨ts, hexit⟩ : ∃ ts, (Lib.run (step pairProgram fun _ => true) _ ts).main = .exited :=
    ⟨_, exited_fairRounds pairProgram (c := pair0) rfl hbegun⟩
  have hclean : Lib.Meets (step pairProgram fun _ => true) Clean (init pairProgram 0 fun _ => ())
      (.friend pair0 :: .friend pair1 :: ts) := by
    refine Lib.meets_cons _ ?_ (Lib.meets_cons _ ?_ (clean_of_begun pairProgram hbegun (by decide) _))
    · rintro c ⟨⟩ r hr
      cases hr
    · rintro c ⟨⟩ r hr
      cases hr
  have h := clean_exit pair pairProgram (fun _ => true) 0 (fun _ => ()) _ hclean hexit
  exact ⟨ts, hexit, h.2.1, (h.1 pair0).2, (h.1 pair1).2⟩

/-! ## A core that comes too late -/

/-- Those of a schedule that can move. -/
def awake (up : Fin B.cores → Bool) : Party (Fin B.cores) → Bool
  | .hakase => true
  | .friend c => up c

/-- A core that does not come up might as well come up later. -/
theorem run_awake {up' : Fin B.cores → Bool} (hup : ∀ c, up c = true → up' c = true) (st : State B S H L)
    (ts : List (Party (Fin B.cores))) :
    Lib.run (step P up) st ts = Lib.run (step P up') st (ts.filter (awake up)) := by
  induction ts generalizing st with
  | nil => rfl
  | cons p ts ih =>
      rw [Lib.run_cons, ih, List.filter_cons]
      cases p with
      | hakase => rfl
      | friend c =>
          by_cases hc : up c = true
          · rw [show awake up (.friend c) = true from hc, if_pos rfl, Lib.run_cons, step, step, if_pos hc,
              if_pos (hup c hc)]
          · rw [show awake up (.friend c) = false from Bool.eq_false_of_not_eq_true hc, step, if_neg hc]
            rfl

variable (up) in
/-- Core `w` by itself brings hakase out of its loop, before any other has begun. -/
theorem exists_exit_alone {w : Fin B.cores} (hw : up w = true) (h : H) (loc : Fin B.cores → L) :
    ∃ ts, (Lib.run (step P up) (init P h loc) ts).main = .exited ∧
      ∀ c, c ≠ w → (Lib.run (step P up) (init P h loc) ts).boot.phase c = .start ∧
        ((Lib.run (step P up) (init P h loc) ts).off.friend c).pc = .next ∧
        ((Lib.run (step P up) (init P h loc) ts).off.friend c).done = 0 := by
  have hinv : Inv P (· == w) h loc (Lib.run (step P (· == w)) (init P h loc) (fairRounds B P).flatten) := inv_run P _
  have hexit : (Lib.run (step P (· == w)) (init P h loc) (fairRounds B P).flatten).main = .exited :=
    exited_fairRounds P (beq_self_eq_true w) (inv_init P)
  have hup : ∀ c, (c == w) = true → up c = true := fun c hc => by rw [beq_iff_eq.mp hc]; exact hw
  rw [run_awake P hup] at hinv hexit
  refine ⟨_, hexit, fun c hc => ?_⟩
  have hstart := hinv.asleep c (beq_false_of_ne hc)
  exact ⟨hstart, hinv.before c (by rw [hstart]; rfl)⟩

theorem stranded_step (hst : Stranded P h₀ loc₀ c st) (p : Party (Fin B.cores)) :
    Stranded P h₀ loc₀ c (step P (fun _ => true) st p) := by
  have hinv := inv_step P hst.inv p
  cases p with
  | hakase =>
      rw [step, stepHakase, hst.exited] at hinv ⊢
      exact hst
  | friend j =>
      rw [step, if_pos rfl, stepCore] at hinv ⊢
      split at hinv
      · rename_i hin
        rw [if_pos hin]
        refine ⟨hinv, hst.exited, ?_⟩
        -- only hakase executes blocks
        exact (Offload.executions_friend P hst.inv.off j (c, 0)).trans hst.none
      · rename_i hin
        rw [if_neg hin]
        exact ⟨hinv, hst.exited, hst.none⟩

/-- **A core that comes too late.** If a friend binary is started on two cores or more, and its `friend_main` has an
`_OFFLOAD` on core `c`, there is a schedule on which hakase leaves its loop before `c` has begun; from then on, in
whatever order the cores go on, the block is not executed and `c` does not come back from `friend_main`. -/
theorem exit_strands_core (B : Boot) (P : Program (Fin B.cores) S H L) (h : H) (loc : Fin B.cores → L)
    {w c : Fin B.cores} (hne : c ≠ w) (hc : P.prog c ≠ []) :
    ∃ ts, (Lib.run (step P fun _ => true) (init P h loc) ts).main = .exited ∧
      (Lib.run (step P fun _ => true) (init P h loc) ts).boot.phase c = .start ∧
      ∀ us, let st := Lib.run (step P fun _ => true) (init P h loc) (ts ++ us)
        st.main = .exited ∧ executions (c, 0) st.off.log = 0 ∧ ¬ Finished P st.off c ∧
          (st.boot.phase c).returned = false := by
  obtain ⟨ts, hexit, hothers⟩ := exists_exit_alone P (fun _ => true) (w := w) rfl h loc
  obtain ⟨hstart, hpc, hdone⟩ := hothers c hne
  have hinv : Inv P (fun _ => true) h loc (Lib.run (step P fun _ => true) (init P h loc) ts) := inv_run P ts
  refine ⟨ts, hexit, hstart, fun us => ?_⟩
  have hst : Stranded P h loc c (Lib.run (step P fun _ => true) (init P h loc) (ts ++ us)) := by
    rw [Lib.run_append]
    exact Lib.run_induct _ (P := Stranded P h loc c)
      ⟨hinv, hexit, Offload.executions_of_next P hinv.off hpc hdone.le⟩ (fun st p hst => stranded_step P hst p) us
  have hfin := hst.not_finished P hc
  exact ⟨hst.exited, hst.none, hfin, Bool.eq_false_of_not_eq_true fun hr => hfin (hst.inv.after c hr)⟩

/-- Of the two cores the second is left behind if the first is through before it begins. -/
theorem exit_strands_pair :
    ∃ ts, ∀ us, let st := Lib.run (step pairProgram fun _ => true) (init pairProgram 0 fun _ => ()) (ts ++ us)
      st.main = .exited ∧ ¬ Finished pairProgram st.off pair1 := by
  obtain ⟨ts, -, -, h⟩ := exit_strands_core pair pairProgram 0 (fun _ => ()) (show pair1 ≠ pair0 by decide)
    (List.cons_ne_nil () [])
  exact ⟨ts, fun us => ⟨(h us).1, (h us).2.2.1⟩⟩

end Toshokan.Session
