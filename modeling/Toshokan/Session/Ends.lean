import Toshokan.Friend.Signal
import Toshokan.Session.Run

/-!
# Hakase's loop ends

A core is on its way through `friend_init` or through its `_OFFLOAD`s, and these wait for hakase, which is in
`TryReceive` or about to call it; hakase in turn waits for the flag, which the last core sets.

* `phaseRank`, `bootRank` : what is ahead of the cores in `friend_init`; `mainRank` : of hakase in its loop;
* `Useful` : a step that is not a turn of a loop; `step_idle` : one that is changes nothing for the others;
* `progress` : the rule of `Lib.Progress`; `session_ends_iff` : the loop ends under every fair schedule iff a core
  comes up.
-/

namespace Toshokan.Session

open Friend (Boot)
open Offload (Party Program Finished)

variable {B : Boot} {S H L : Type} (P : Program (Fin B.cores) S H L) {up : Fin B.cores → Bool} {h₀ : H}
  {loc₀ : Fin B.cores → L} {st : State B S H L} {c : Fin B.cores}

/-! ## Hakase's loop, and the flag -/

/-- Hakase in the loop of `TryReceive` without a request, or with something to do. -/
theorem hakase_cases {st : Offload.State (Fin B.cores) S H L} (h : Offload.Inv P h₀ loc₀ st) :
    Offload.Useful P st .hakase ∨
      st.off.friendCtx 8 = 0 ∧ (st.hakase.pc = .next ∨ st.hakase.pc = .recvTest ∨ st.hakase.pc = .recvRet false) := by
  have hout : Offload.Out st.hakase st.calls → Offload.Useful P st .hakase ∨
      st.off.friendCtx 8 = 0 ∧ (st.hakase.pc = .next ∨ st.hakase.pc = .recvTest ∨ st.hakase.pc = .recvRet false) := by
    intro ho
    by_cases hu : Offload.Useful P st .hakase
    · exact .inl hu
    · right
      have hstep : P.step st .hakase ≠ st := by
        cases ho with
        | next hpc => exact Offload.step_ne P (p := .hakase) hpc (by simp) fun _ => .inl rfl
        | test _ hpc | empty _ hpc | one _ _ _ hpc => exact Offload.step_ne P (p := .hakase) hpc (by simp) (by simp)
      have hspins : Offload.spinsAt st .hakase st.hakase.pc := not_not.mp fun hs => hu ⟨hstep, hs⟩
      cases ho with
      | next hpc =>
          rw [hpc] at hspins
          exact ⟨hspins.2, .inl hpc⟩
      | test _ hpc =>
          rw [hpc] at hspins
          exact ⟨hspins, .inr (.inl hpc)⟩
      | empty _ hpc =>
          rw [hpc] at hspins
          exact ⟨hspins, .inr (.inr hpc)⟩
      | one _ _ _ hpc =>
          rw [hpc] at hspins
          exact hspins.elim
  obtain ⟨rs, -, hfree | ⟨i, s, hheld, -⟩⟩ := h
  · exact hout hfree.out
  · rcases hheld.stage.hakase_cases P with ho | ⟨c₀, k, b, hs, -⟩
    · exact hout ho
    · exact .inl (hs.useful P)

/-- A turn of a loop changes nothing that others see, and no rank. -/
theorem off_idle {st : Offload.State (Fin B.cores) S H L} (h : Offload.Inv P h₀ loc₀ st) (hs : Offload.Short st)
    {p : Party (Fin B.cores)} (hu : ¬ Offload.Useful P st p) :
    (P.step st p).off = st.off ∧ Offload.rank P (P.step st p) ≤ Offload.rank P st := by
  refine ⟨?_, (Offload.progress P h₀ loc₀).idle_rank st p ⟨h, hs⟩ hu⟩
  by_cases hstep : P.step st p = st
  · rw [hstep]
  · exact (Offload.step_spins P h (not_not.mp fun hs => hu ⟨hstep, hs⟩)).off

theorem Inv.stopped_of_done (h : Inv P up h₀ loc₀ st) (hc : up c = true)
    (hall : ∀ c, up c = true → st.boot.phase c = .done) : B.isFriendStopped st.boot = true := by
  obtain ⟨us, hus⟩ := h.boot
  have hcount : B.Counts st.boot := hus ▸ Boot.counts_run us
  have hcases : ∀ c, st.boot.phase c = .done ∨ st.boot.phase c = .start := by
    intro c
    cases hup : up c with
    | true => exact .inl (hall c hup)
    | false => exact .inr (h.asleep c hup)
  rcases hus ▸ Boot.due_run us with ⟨hs, -⟩ | ⟨c', hc'⟩ | hdue
  · exact beq_iff_eq.mpr hs
  · rcases hcases c' with hph | hph <;> rw [hph] at hc' <;> cases hc'
  · exfalso
    have heq : st.boot.returnedCount = st.boot.initCount := by
      apply BitVec.eq_of_toNat_eq
      rw [hcount.returned, hcount.init]
      apply Lib.count_congr
      intro c'
      rcases hcases c' with hph | hph <;> rw [hph] <;> rfl
    have hne : st.boot.initCount ≠ 0 := by
      intro h0
      have hstart := hcount.initCount_eq_zero_iff.mp h0 c
      rw [hall c hc] at hstart
      cases hstart
    obtain ⟨c', hc'⟩ := hdue heq hne
    rcases hcases c' with hph | hph <;> rw [hph] at hc' <;> cases hc'

/-! ## The rank -/

/-- The steps of `friend_init` that are ahead of a core. -/
def phaseRank (B : Boot) : Friend.Phase → Nat
  | .start => 2 * B.initArray + 2 * B.finiArray + 9
  | .ctor k => 2 * (B.initArray - k) + 2 * B.finiArray + 8
  | .inCtor k => 2 * (B.initArray - (k + 1)) + 2 * B.finiArray + 9
  | .call => 2 * B.finiArray + 7
  | .main => 2 * B.finiArray + 6
  | .back => 2 * B.finiArray + 5
  | .test _ => 2 * B.finiArray + 4
  | .dtor k => 2 * (B.finiArray - k) + 2
  | .inDtor k => 2 * (B.finiArray - (k + 1)) + 3
  | .setFlag => 1
  | .done => 0

def coreWeight (B : Boot) : Nat := 2 * B.initArray + 2 * B.finiArray + 9

theorem phaseRank_le (ph : Friend.Phase) : phaseRank B ph ≤ coreWeight B := by
  unfold phaseRank coreWeight
  split <;> omega

theorem phaseRank_next {bt : B.State} {ph : Friend.Phase} (h : ph ≠ .done) :
    phaseRank B (nextPhase bt ph) < phaseRank B ph := by
  cases ph with
  | done => exact absurd rfl h
  | start | ctor k | test r | dtor k =>
      rw [nextPhase]
      split <;> simp only [phaseRank] <;> omega
  | inCtor k | call | main | back | inDtor k | setFlag =>
      simp only [nextPhase, phaseRank]
      omega

def bootRank (bt : B.State) : Nat := ∑ c, phaseRank B (bt.phase c)

theorem bootRank_step {bt : B.State} (h : bt.phase c ≠ .done) : bootRank (B.step bt c) < bootRank bt := by
  refine Finset.sum_lt_sum (fun c' _ => ?_) ⟨c, Finset.mem_univ c, ?_⟩
  · by_cases hc : c' = c
    · subst hc
      rw [phase_boot_self]
      by_cases hd : bt.phase c' = .done
      · exact absurd hd h
      · exact (phaseRank_next hd).le
    · rw [phase_boot_of_ne hc]
  · rw [phase_boot_self]
    exact phaseRank_next h

theorem bootRank_le (bt : B.State) : bootRank bt ≤ B.cores * coreWeight B := by
  refine (Finset.sum_le_card_nsmul _ _ (coreWeight B) fun c _ => phaseRank_le _).trans_eq ?_
  rw [Finset.card_univ, Fintype.card_fin, Nat.nsmul_eq_mul]

def bound (B : Boot) (P : Program (Fin B.cores) S H L) : Nat :=
  8 * (B.cores * coreWeight B + Offload.eventWeight (Fin B.cores) * (Offload.totalEvents P + 1))

def allParties (n : Nat) : List (Party (Fin n)) := .hakase :: (List.finRange n).map .friend

theorem isRound_allParties (n : Nat) : Lib.IsRound (allParties n) := by
  intro p
  cases p with
  | hakase => exact List.mem_cons_self
  | friend c => exact List.mem_cons_of_mem _ (List.mem_map_of_mem (List.mem_finRange c))

/-- As many rounds as are enough. -/
def fairRounds (B : Boot) (P : Program (Fin B.cores) S H L) : List (List (Party (Fin B.cores))) :=
  List.replicate (bound B P) (allParties B.cores)

theorem isRound_fairRounds : ∀ r ∈ fairRounds B P, Lib.IsRound r := by
  intro r hr
  rw [List.eq_of_mem_replicate hr]
  exact isRound_allParties _

theorem length_fairRounds : (fairRounds B P).length = bound B P := List.length_replicate

variable [DecidableEq S]

/-- How far hakase is from leaving its loop. As long as the flag is not set and no request is posted it goes round. -/
def mainRank (st : State B S H L) : Nat :=
  if st.main = .exited then 0
  else if B.isFriendStopped st.boot = true then
    if st.main = .test then 1
    else if st.off.hakase.pc = .recvRet false then 2
    else if st.off.hakase.pc = .recvTest then 3
    else if st.off.hakase.pc = .next then 4
    else 5
  else if st.main = .test ∨ st.off.off.friendCtx 8 = 0 then 7 else 6

theorem mainRank_le (st : State B S H L) : mainRank st ≤ 7 := by
  unfold mainRank
  split_ifs <;> omega

def rank (st : State B S H L) : Nat := 8 * (bootRank st.boot + Offload.rank P st.off) + mainRank st

theorem rank_lt {st' : State B S H L}
    (h : bootRank st'.boot + Offload.rank P st'.off < bootRank st.boot + Offload.rank P st.off) :
    rank P st' < rank P st := by
  have hle := mainRank_le st'
  unfold rank
  omega

/-! ## Progress -/

/-- The step of `p` is not a turn of a loop that cannot be left yet. -/
def Useful (up : Fin B.cores → Bool) (st : State B S H L) : Party (Fin B.cores) → Prop
  | .friend c => up c = true ∧
      (InMain P st c ∧ Offload.Useful P st.off (.friend c) ∨ ¬ InMain P st c ∧ st.boot.phase c ≠ .done)
  | .hakase => st.main ≠ .exited ∧ (B.isFriendStopped st.boot = true ∨ Offload.Useful P st.off .hakase)

/-- Nothing has changed that another party than `p` sees. -/
structure Idle (st st' : State B S H L) (p : Party (Fin B.cores)) : Prop where
  boot : st'.boot = st.boot
  off : st'.off.off = st.off.off
  others : ∀ q, q ≠ p → st'.off.thread q = st.off.thread q
  main : p ≠ .hakase → st'.main = st.main
  rank : rank P st' ≤ rank P st

theorem idle_refl (p : Party (Fin B.cores)) : Idle P st st p := ⟨rfl, rfl, fun _ _ => rfl, fun _ => rfl, le_rfl⟩

theorem idle_stepCore (h : Inv P up h₀ loc₀ st) (hup : up c = true) (hu : ¬ Useful P up st (.friend c)) :
    Idle P st (stepCore P st c) (.friend c) := by
  have hu' : ¬ (InMain P st c ∧ Offload.Useful P st.off (.friend c) ∨ ¬ InMain P st c ∧ st.boot.phase c ≠ .done) :=
    fun hu' => hu ⟨hup, hu'⟩
  unfold stepCore
  split
  · rename_i hin
    obtain ⟨hoff, hrank⟩ := off_idle P h.off h.short (p := .friend c) fun ho => hu' (.inl ⟨hin, ho⟩)
    have hothers : ∀ q, q ≠ .friend c → (P.step st.off (.friend c)).thread q = st.off.thread q :=
      fun q hq => Offload.step_thread_of_ne P st.off hq
    refine ⟨rfl, hoff, hothers, fun _ => rfl, ?_⟩
    have hhakase : (P.step st.off (.friend c)).hakase = st.off.hakase := hothers .hakase (by simp)
    simp only [rank, mainRank, hhakase, hoff]
    omega
  · rename_i hin
    have hdone : st.boot.phase c = .done := not_not.mp fun hd => hu' (.inr ⟨hin, hd⟩)
    rw [B.step_eq hdone]
    exact idle_refl P _

/-- Hakase going round its loop: the flag is not set and no request is posted. -/
theorem idle_stepHakase (h : Inv P up h₀ loc₀ st) (hu : ¬ Useful P up st .hakase) :
    Idle P st (stepHakase P st) .hakase := by
  by_cases hne : st.main = .exited
  · rw [stepHakase, hne]
    exact idle_refl P _
  have hstop : ¬ B.isFriendStopped st.boot = true := fun hs => hu ⟨hne, .inl hs⟩
  have hidle : ¬ Offload.Useful P st.off .hakase := fun ho => hu ⟨hne, .inr ho⟩
  obtain ⟨h8, -⟩ := (hakase_cases P h.off).resolve_left hidle
  have hwait : ∀ (o : Offload.State (Fin B.cores) S H L) (m : Main), o.off = st.off.off → m ≠ .exited →
      mainRank (⟨st.boot, o, m⟩ : State B S H L) = 7 := by
    intro o m hoff hmain
    rw [mainRank, if_neg hmain, if_neg hstop, if_pos (.inr (by rw [hoff]; exact h8))]
  have hbefore : mainRank st = 7 := hwait st.off st.main rfl hne
  cases hm : st.main with
  | exited => exact absurd hm hne
  | test =>
      rw [stepHakase_test P hm, if_neg hstop]
      refine ⟨rfl, rfl, fun _ _ => rfl, fun hp => absurd rfl hp, ?_⟩
      rw [rank, rank, hbefore, hwait _ .receive rfl (by simp)]
  | receive =>
      obtain ⟨hoff, hrank⟩ := off_idle P h.off h.short hidle
      rw [stepHakase_receive P hm]
      refine ⟨rfl, hoff, fun q hq => Offload.step_thread_of_ne P st.off hq, fun hp => absurd rfl hp, ?_⟩
      rw [rank, rank, hbefore, hwait (P.step st.off .hakase) _ hoff (by split <;> simp)]
      dsimp only
      omega

theorem step_idle (h : Inv P up h₀ loc₀ st) {p : Party (Fin B.cores)} (hu : ¬ Useful P up st p) :
    Idle P st (step P up st p) p := by
  cases p with
  | hakase => exact idle_stepHakase P h hu
  | friend c =>
      rw [step]
      split
      · rename_i hup
        exact idle_stepCore P h hup hu
      · exact idle_refl P _

theorem Useful.idle {st' : State B S H L} {p u : Party (Fin B.cores)} (hi : Idle P st st' p) (hne : u ≠ p)
    (hu : Useful P up st u) : Useful P up st' u := by
  have ht : st'.off.thread u = st.off.thread u := hi.others u hne
  cases u with
  | hakase =>
      rw [Useful, hi.main hne.symm, hi.boot]
      exact ⟨hu.1, hu.2.imp_right fun ho => ho.congr P hi.off ht⟩
  | friend c =>
      have hin : InMain P st' c ↔ InMain P st c := by
        rw [InMain, InMain, Finished, Finished, hi.boot, show st'.off.friend c = st.off.friend c from ht]
      rw [Useful, hin, hi.boot]
      exact ⟨hu.1, hu.2.imp_left fun ho => ⟨ho.1, ho.2.congr P hi.off ht⟩⟩

theorem rank_stepCore (h : Inv P up h₀ loc₀ st)
    (hu : InMain P st c ∧ Offload.Useful P st.off (.friend c) ∨ ¬ InMain P st c ∧ st.boot.phase c ≠ .done) :
    rank P (stepCore P st c) < rank P st := by
  unfold stepCore
  rcases hu with ⟨hin, ho⟩ | ⟨hin, hph⟩
  · rw [if_pos hin]
    exact rank_lt P (Nat.add_lt_add_left (Offload.rank_useful P h.off h.short ho) _)
  · rw [if_neg hin]
    exact rank_lt P (Nat.add_lt_add_right (bootRank_step hph) _)

theorem rank_stepHakase (h : Inv P up h₀ loc₀ st) (hu : Useful P up st .hakase) :
    rank P (stepHakase P st) < rank P st := by
  cases hm : st.main with
  | exited => exact absurd hm hu.1
  | test =>
      rw [stepHakase_test P hm]
      by_cases hstop : B.isFriendStopped st.boot = true
      · simp [rank, mainRank, hm, hstop]
      · have hpc : st.off.hakase.pc = .next := h.loop (by rw [hm]; simp)
        -- a request is posted
        have h8 : st.off.off.friendCtx 8 ≠ 0 := by
          intro h8
          refine (hu.2.resolve_left hstop).2 ?_
          rw [Offload.Spins, show (st.off.thread .hakase).pc = _ from hpc]
          exact ⟨rfl, h8⟩
        have hlt : mainRank (⟨st.boot, st.off, .receive⟩ : State B S H L) < mainRank st := by
          simp only [mainRank, hm, if_neg hstop, h8]
          decide
        rw [if_neg hstop, rank, rank]
        exact Nat.add_lt_add_left hlt _
  | receive =>
      rw [stepHakase_receive P hm]
      by_cases ho : Offload.Useful P st.off .hakase
      · exact rank_lt P (Nat.add_lt_add_left (Offload.rank_useful P h.off h.short ho) _)
      · have hstop : B.isFriendStopped st.boot = true := hu.2.resolve_right ho
        obtain ⟨-, hrank⟩ := off_idle P h.off h.short ho
        obtain ⟨h8, hpc⟩ := (hakase_cases P h.off).resolve_left ho
        have hmain : mainRank (⟨st.boot, P.step st.off .hakase,
            if st.off.hakase.pc = .recvRet false then .test else .receive⟩ : State B S H L) < mainRank st := by
          rcases hpc with hpc | hpc | hpc
          · rw [P.step_eq (p := .hakase) hpc]
            simp [mainRank, hm, hstop, hpc, Program.stepAt, Program.stepNext]
          · rw [P.step_eq (p := .hakase) hpc]
            simp [mainRank, hm, hstop, hpc, Program.stepAt, Offload.State.goto, Offload.State.setThread, h8]
          · simp [mainRank, hm, hstop, hpc]
        rw [rank, rank]
        dsimp only
        omega

theorem useful_exists (h : Inv P up h₀ loc₀ st) (hc : up c = true) (hm : st.main ≠ .exited) :
    ∃ p, Useful P up st p := by
  by_cases hstop : B.isFriendStopped st.boot = true
  · exact ⟨.hakase, hm, .inl hstop⟩
  obtain ⟨c', hup, hph⟩ : ∃ c', up c' = true ∧ st.boot.phase c' ≠ .done := by
    by_contra hnone
    exact hstop (h.stopped_of_done P hc fun c' hc' => not_not.mp fun hd => hnone ⟨c', hc', hd⟩)
  by_cases hin : InMain P st c'
  · have hlt := (Offload.finished_or_lt P h.off c').resolve_left hin.2
    obtain ⟨p, hp, rfl | ⟨j, rfl, rfl | hj⟩⟩ := Offload.useful_near P h.off hlt
    · exact ⟨.hakase, hm, .inr hp⟩
    · exact ⟨.friend j, hup, .inl ⟨hin, hp⟩⟩
    · have hjin := h.inMain P hj
      refine ⟨.friend j, h.up_of_begun P ?_, .inl ⟨hjin, hp⟩⟩
      rw [hjin.1]
      simp
  · exact ⟨.friend c', hup, .inr ⟨hin, hph⟩⟩

theorem progress (hc : up c = true) :
    Lib.Progress (step P up) (Inv P up h₀ loc₀) (fun st => st.main = .exited) (Useful P up) (rank P) where
  keep st p h := inv_step P h p
  keep_over st p _ hm := by
    cases p with
    | hakase =>
        rw [step, stepHakase, hm]
        exact hm
    | friend c =>
        rw [step, stepCore]
        split
        · split <;> exact hm
        · exact hm
  exists_useful st h hm := useful_exists P h hc hm
  lowers st p h hu := by
    cases p with
    | hakase => exact rank_stepHakase P h hu
    | friend c =>
        rw [step, if_pos hu.1]
        exact rank_stepCore P h hu.2
  idle_rank st p h hu := (step_idle P h hu).rank
  idle_useful st p u h hu hu' := by
    refine Useful.idle P (step_idle P h hu) ?_ hu'
    rintro rfl
    exact hu hu'

theorem rank_lt_bound (h : Inv P up h₀ loc₀ st) : rank P st < bound B P := by
  have hboot := bootRank_le st.boot
  have hmain := mainRank_le st
  have hoff := Offload.rank_lt P h.short
  unfold rank bound
  omega

theorem exited_of_rounds (hc : up c = true) (h : Inv P up h₀ loc₀ st) {rounds : List (List (Party (Fin B.cores)))}
    (hr : ∀ r ∈ rounds, Lib.IsRound r) (hn : bound B P ≤ rounds.length) :
    (Lib.run (step P up) st rounds.flatten).main = .exited :=
  (progress P hc).over_of_rounds h hr ((rank_lt_bound P h).trans_le hn)

theorem exited_fairRounds (hc : up c = true) (h : Inv P up h₀ loc₀ st) :
    (Lib.run (step P up) st (fairRounds B P).flatten).main = .exited :=
  exited_of_rounds P hc h (isRound_fairRounds P) (length_fairRounds P).ge

theorem boot_of_none (hnone : ∀ c, up c ≠ true) (ts : List (Party (Fin B.cores))) :
    (Lib.run (step P up) (init P h₀ loc₀) ts).boot = B.init := by
  refine Lib.run_induct _ (P := fun st : State B S H L => st.boot = B.init) rfl (fun st p hst => ?_) ts
  cases p with
  | hakase =>
      rw [step, stepHakase]
      split <;> exact hst
  | friend c =>
      rw [step, if_neg (hnone c)]
      exact hst

theorem up_of_exited {ts : List (Party (Fin B.cores))}
    (h : (Lib.run (step P up) (init P h₀ loc₀) ts).main = .exited) : ∃ c, up c = true := by
  by_contra hnone
  have hinv : Inv P up h₀ loc₀ (Lib.run (step P up) (init P h₀ loc₀) ts) := inv_run P ts
  have hstop := hinv.stopped h
  rw [boot_of_none P (not_exists.mp hnone)] at hstop
  cases hstop

/-- **When hakase's loop ends.** It can end iff a core comes up; and then it ends under every schedule, from every state
a session can get into, after `bound B P` rounds in each of which every party has a turn. -/
theorem session_ends_iff (B : Boot) (P : Program (Fin B.cores) S H L) (up : Fin B.cores → Bool) (h : H)
    (loc : Fin B.cores → L) :
    ((∃ ts, (Lib.run (step P up) (init P h loc) ts).main = .exited) ↔ ∃ c, up c = true) ∧
    ((∀ (ts : List (Party (Fin B.cores))) (rounds : List (List (Party (Fin B.cores)))),
      (∀ r ∈ rounds, Lib.IsRound r) → bound B P ≤ rounds.length →
        (Lib.run (step P up) (init P h loc) (ts ++ rounds.flatten)).main = .exited) ↔ ∃ c, up c = true) := by
  refine ⟨⟨fun ⟨_, hts⟩ => up_of_exited P hts, ?_⟩, fun hall => ?_, ?_⟩
  · rintro ⟨c, hc⟩
    exact ⟨_, exited_fairRounds P hc (inv_init P)⟩
  · exact up_of_exited P (hall [] (fairRounds B P) (isRound_fairRounds P) (length_fairRounds P).ge)
  · rintro ⟨c, hc⟩ ts rounds hr hn
    rw [Lib.run_append]
    exact exited_of_rounds P hc (inv_run P ts) hr hn

/-! ## A session of two cores -/

/-- Two cores, one constructor, one destructor. -/
def pair : Boot := ⟨2, by decide, 1, 1⟩

def pair0 : Fin pair.cores := ⟨0, by decide⟩

def pair1 : Fin pair.cores := ⟨1, by decide⟩

/-- The program of `Offload.countingProgram` on them. -/
def pairProgram : Program (Fin pair.cores) Unit Nat Unit := Offload.countingProgram

end Toshokan.Session
