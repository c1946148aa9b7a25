import Toshokan.Lib.Rounds
import Toshokan.Offload.Rank

/-!
# Every `_OFFLOAD` returns under a fair schedule

* `step_useful` : a useful step is an event or lowers `localRank`; `step_spins` : a turn of a loop changes no rank and
  nothing anybody else sees;
* `progress` : the rule of `Lib.Progress` applies, with `rank` as the rank;
* `offloads_complete` : enough rounds bring all `_OFFLOAD`s to their end, with the result of running the blocks one
  after another.
-/

namespace Toshokan.Offload

variable {ι S H L : Type} (P : Program ι S H L) {h₀ : H} {loc₀ : ι → L} {st : State ι S H L}

section Local
variable [Fintype ι] {st' : State ι S H L}

/-- Nothing has changed that a rank depends on, or that anybody else sees. -/
structure Idle (st st' : State ι S H L) : Prop where
  off : st'.off = st.off
  log : st'.log = st.log
  rank : localRank st' = localRank st

theorem idle_hakase {t : Thread S} {c : List (Call ι S)} (hst : st' = { st with hakase := t, calls := c })
    (hr : hakaseRank (firstBuf st.log) st.off t = hakaseRank (firstBuf st.log) st.off st.hakase) : Idle st st' := by
  subst hst
  exact ⟨rfl, rfl, by simp only [localRank, hr]⟩

variable [DecidableEq ι]

/-- **A useful step** is an event, or lowers the rank between two events. -/
theorem step_useful (h : Inv P h₀ loc₀ st) {p : Party ι} (hu : Useful P st p) :
    Emits st (P.step st p) ∨ Lower st (P.step st p) := by
  obtain ⟨rs, -, hcase⟩ := h
  have hσ : ((Serial.init P h₀ loc₀).runs P rs).Owned P := Serial.owned_runs P (Serial.owned_init P h₀ loc₀) rs
  rcases hcase with hfree | ⟨i, s, hheld, hothers⟩
  · cases p with
    | hakase => exact .inr (hfree.out.lowers P hu)
    | friend k => exact (hfree.cores k).lowers P hu
  · cases p with
    | hakase =>
        rcases hheld.stage.hakase_cases P with ho | ⟨c₀, k, b, hs, hl, -⟩
        · exact .inr (Out.lowers P ho hu)
        · exact hs.lowers P hσ hl
    | friend k =>
        by_cases hk : k = i
        · subst hk
          exact hheld.stage.holder_lowers P hothers hu
        · exact (hothers k hk).lowers P hu

theorem rank_useful (h : Inv P h₀ loc₀ st) (hs : Short st) {p : Party ι} (hu : Useful P st p) :
    rank P (P.step st p) < rank P st := by
  rcases step_useful P h hu with ⟨e, he⟩ | ⟨hlog, hlt⟩
  · -- the event outweighs whatever it does to the rank between events
    have hle := length_log_le P (inv_step P p h)
    rw [he, List.length_append, List.length_singleton] at hle
    have hlt := localRank_lt (short_step P st p hs)
    have hsub : totalEvents P - st.log.length = totalEvents P - (st.log.length + 1) + 1 := by omega
    rw [rank, rank, he, List.length_append, List.length_singleton, hsub, Nat.mul_add, Nat.mul_one]
    omega
  · rw [rank, rank, hlog]
    omega

/-! ## Spinning -/

theorem idle_friend {i : ι} {t : Thread S} (hst : st' = st.setThread (.friend i) t)
    (hr : friendRank st.off t = friendRank st.off (st.friend i)) : Idle st st' := by
  subst hst
  refine ⟨rfl, rfl, ?_⟩
  have hsum : ∀ k, friendRank st.off (Function.update st.friend i t k) = friendRank st.off (st.friend k) := by
    intro k
    by_cases hk : k = i
    · subst hk
      rw [Function.update_self, hr]
    · rw [Function.update_of_ne hk]
  simp only [localRank, State.setThread, hsum]

theorem Out.idle (ho : Out st.hakase st.calls) (hs : Spins st .hakase) : Idle st (P.step st .hakase) := by
  have hs' : spinsAt st .hakase st.hakase.pc := hs
  cases ho with
  | next hpc =>
      rw [hpc] at hs'
      rw [P.step_eq (p := .hakase) hpc]
      refine idle_hakase rfl ?_
      simp only [hakaseRank, hpc, if_pos hs'.2]
  | test c hpc =>
      rw [hpc] at hs'
      have h8 : st.off.friendCtx 8 = 0 := hs'
      rw [P.step_eq (p := .hakase) hpc, Program.stepAt, if_pos h8]
      refine idle_hakase (c := st.calls) rfl ?_
      simp only [hakaseRank, hpc, if_pos h8]
  | empty c hpc =>
      rw [hpc] at hs'
      have h8 : st.off.friendCtx 8 = 0 := hs'
      rw [P.step_eq (p := .hakase) hpc]
      refine idle_hakase rfl ?_
      simp only [hakaseRank, hpc, State.setThread, if_pos h8]
  | one c id s hpc =>
      rw [hpc] at hs'
      exact hs'.elim

theorem Outside.idle {σ : Serial ι H L} {i : ι} (ho : Outside P σ i (st.friend i) (st.loc i))
    (hs : Spins st (.friend i)) : Idle st (P.step st (.friend i)) := by
  have hs' : spinsAt st (.friend i) (st.friend i).pc := hs
  cases ho with
  | next hpc =>
      rw [hpc] at hs'
      exact nomatch hs'.1
  | trying s hpc =>
      rcases hpc with hpc | hpc | hpc
      all_goals
        rw [hpc] at hs'
        rw [P.step_eq (p := .friend i) hpc, Program.stepAt]
        have hlock : ¬ st.off.lock = 0 := hs'
      · rw [if_pos hlock]
        refine idle_friend rfl ?_
        simp only [friendRank, hpc, if_neg hlock]
      · rw [if_neg hlock]
        refine idle_friend rfl ?_
        simp only [friendRank, hpc, if_neg hlock]
      · refine idle_friend rfl ?_
        simp only [friendRank, hpc, if_neg hlock]

theorem waiting_inWait {t : Thread S} {b : Bool} (h : Waiting t b) : ∃ is, t.pc = .asm is ∧ InWait is := by
  obtain ⟨-, hpc | hpc | ⟨hpc, -⟩⟩ := h
  · exact ⟨_, hpc, .inl rfl⟩
  · exact ⟨_, hpc, .inr (.inl rfl)⟩
  · exact ⟨_, hpc, .inr (.inr rfl)⟩

theorem friendRank_waiting {o : Offloader} {t : Thread S} {b : Bool} (h : Waiting t b) (h9 : o.friendCtx 9 = 0) :
    friendRank o t = 60 := by
  obtain ⟨is, hpc, hi⟩ := waiting_inWait h
  simp only [friendRank, hpc, hi, h9, and_self, if_true]

theorem waiting_idle {i : ι} (ht : Waiting (st.friend i) false) (h9 : st.off.friendCtx 9 = 0) :
    Idle st (P.step st (.friend i)) := by
  obtain ⟨t, hstep, -, ht' | ⟨hb, -⟩⟩ := step_waiting P ht (fun _ => h9)
  · refine idle_friend hstep ?_
    rw [friendRank_waiting ht' h9, friendRank_waiting ht h9]
  · exact absurd hb Bool.false_ne_true

theorem Stage.holder_idle {σ : Serial ι H L} {i : ι} {s : S} {base : List (Event ι S)}
    (h : Stage P σ i s base (st.view i)) (hs : Spins st (.friend i)) : Idle st (P.step st (.friend i)) := by
  have hs' : spinsAt st (.friend i) (st.friend i).pc := hs
  cases h with
  | entered hpc | resumed hpc | unlocking hpc =>
      rw [show (st.friend i).pc = _ from hpc] at hs'
      exact hs'.elim
  | saving _ hr =>
      obtain ⟨body, hpc, -⟩ := hr
      rw [show (st.friend i).pc = _ from hpc] at hs'
      exact absurd hs'.1 (not_inWait_saving body)
  | posted ht _ hw => exact waiting_idle P ht hw.2
  | serving _ _ _ _ ht h9 => exact waiting_idle P ht h9
  | served ht _ hw =>
      obtain ⟨is, hpc, -⟩ := waiting_inWait ht
      rw [show (st.friend i).pc = _ from hpc] at hs'
      have h1 : st.off.friendCtx 9 = 1 := hw.2
      rw [hs'.2] at h1
      exact absurd h1 (by decide)
  | loading _ hr | cleared _ hr =>
      obtain ⟨body, hpc, hb, -⟩ := hr
      rw [show (st.friend i).pc = _ from hpc] at hs'
      exact absurd hs'.1 (not_inWait_append hb (by decide))

/-- **A turn of a loop that cannot be left yet** changes nothing. -/
theorem step_spins (h : Inv P h₀ loc₀ st) {p : Party ι} (hs : Spins st p) : Idle st (P.step st p) := by
  obtain ⟨rs, -, hfree | ⟨i, s, hheld, hothers⟩⟩ := h
  · cases p with
    | hakase => exact hfree.out.idle P hs
    | friend k => exact (hfree.cores k).idle P hs
  · cases p with
    | hakase =>
        rcases hheld.stage.hakase_cases P with ho | ⟨c₀, k, b, hserve, -⟩
        · exact Out.idle P ho hs
        · exact absurd hs (hserve.useful P).2
    | friend k =>
        by_cases hk : k = i
        · subst hk
          exact hheld.stage.holder_idle P hs
        · exact (hothers k hk).idle P hs

end Local

variable [DecidableEq ι]

/-! ## Progress -/

theorem Useful.congr {st' : State ι S H L} {u : Party ι} (hu : Useful P st u) (ho : st'.off = st.off)
    (ht : st'.thread u = st.thread u) : Useful P st' u := by
  obtain ⟨hne, hs⟩ := hu
  refine ⟨step_ne P (show (st'.thread u).pc = (st.thread u).pc by rw [ht]) ?_ fun hpc => ?_, ?_⟩
  · intro hpc
    exact hne (P.step_eq hpc)
  · cases u with
    | hakase => exact .inl rfl
    | friend i =>
        refine .inr ⟨i, rfl, ?_⟩
        rw [show st'.friend i = st.friend i from ht]
        by_contra hlt
        have hnone : (P.prog i)[(st.friend i).done]? = none := List.getElem?_eq_none (Nat.le_of_not_lt hlt)
        refine hne ((P.step_eq hpc).trans ?_)
        simp only [Program.stepAt, Program.stepNext, hnone]
  · have hsame : ∀ pc, spinsAt st' u pc = spinsAt st u pc := by
      intro pc
      cases pc <;> simp only [spinsAt, ho]
    rw [Spins, ht, hsame]
    exact hs

theorem finished_or_lt (h : Inv P h₀ loc₀ st) (i : ι) : Finished P st i ∨ (st.friend i).done < (P.prog i).length := by
  have hout : ∀ {σ : Serial ι H L}, σ.count i ≤ (P.prog i).length → Outside P σ i (st.friend i) (st.loc i) →
      Finished P st i ∨ (st.friend i).done < (P.prog i).length := by
    intro σ hle ho
    cases ho with
    | next hpc hd =>
        rcases Nat.lt_or_eq_of_le hle with hlt | heq
        · exact .inr (by rwa [hd])
        · exact .inl ⟨hpc, hd.trans heq⟩
    | trying s _ hd hs => exact .inr (by rw [hd]; exact (List.getElem?_eq_some_iff.mp hs).1)
  obtain ⟨rs, hord, hfree | ⟨j, s, hheld, hothers⟩⟩ := h
  · exact hout (hord i).2 (hfree.cores i)
  · by_cases hj : i = j
    · subst hj
      right
      rw [show (st.friend i).done = _ from hheld.done]
      exact (List.getElem?_eq_some_iff.mp hheld.site).1
    · exact hout (hord i).2 (hothers i hj)

theorem finished_step {i : ι} (hf : Finished P st i) (p : Party ι) : Finished P (P.step st p) i := by
  have hsame : (P.step st p).friend i = st.friend i := by
    by_cases hp : p = .friend i
    · subst hp
      have hnone : (P.prog i)[(st.friend i).done]? = none := List.getElem?_eq_none hf.2.ge
      rw [P.step_eq (p := .friend i) hf.1]
      simp only [Program.stepAt, Program.stepNext, hnone]
    · exact step_thread_of_ne P st (q := .friend i) (Ne.symm hp)
  rw [Finished, hsame]
  exact hf

theorem progress [Fintype ι] (h₀ : H) (loc₀ : ι → L) :
    Lib.Progress P.step (fun st => Inv P h₀ loc₀ st ∧ Short st) (fun st => ∀ i, Finished P st i) (Useful P) (rank P) where
  keep st p h := ⟨inv_step P p h.1, short_step P st p h.2⟩
  keep_over st p _ hf i := finished_step P (hf i) p
  exists_useful st h hf := by
    obtain ⟨i, hi⟩ := not_forall.mp hf
    exact useful_exists P h.1 ((finished_or_lt P h.1 i).resolve_left hi)
  lowers st p h hu := rank_useful P h.1 h.2 hu
  idle_rank st p h hu := by
    by_cases hstep : P.step st p = st
    · rw [hstep]
    · have hidle := step_spins P h.1 (not_not.mp fun hs => hu ⟨hstep, hs⟩)
      rw [rank, rank, hidle.log, hidle.rank]
  idle_useful st p u h hu hu' := by
    by_cases hstep : P.step st p = st
    · rwa [hstep]
    · have hidle := step_spins P h.1 (not_not.mp fun hs => hu ⟨hstep, hs⟩)
      have hne : u ≠ p := by
        rintro rfl
        exact hu hu'
      exact hu'.congr P hidle.off (step_thread_of_ne P st hne)

theorem executions_of_done (h : Inv P h₀ loc₀ st) {i : ι} {n : Nat} (hn : n < (st.friend i).done) :
    executions (i, n) st.log = 1 := by
  obtain ⟨s, c, d, -, he⟩ := ofRequest_of_done P h hn
  rw [executions, he]
  rfl

theorem executions_of_next (h : Inv P h₀ loc₀ st) {i : ι} {n : Nat} (hpc : (st.friend i).pc = .next)
    (hn : (st.friend i).done ≤ n) : executions (i, n) st.log = 0 := by
  have hnil : ofRequest (i, n) st.log = [] := by
    obtain ⟨rs, -, hfree | ⟨j, s, hheld, hothers⟩⟩ := h
    · rw [(hfree.cores i).done P] at hn
      rw [hfree.log, ofRequest_sessions_of_le P rs hn]
    · have hj : i ≠ j := by
        rintro rfl
        exact hheld.stage.holder_ne_next P hpc
      rw [(hothers i hj).done P] at hn
      obtain ⟨k, hk⟩ := hheld.stage.log P
      have hrest := ofRequest_take P ((Serial.init P h₀ loc₀).runs P rs) j s k (i, n)
      rw [ofRequest_session, if_neg fun h => hj (congrArg Prod.fst h), List.prefix_nil] at hrest
      rw [show st.log = _ from hk, ofRequest_append, ofRequest_sessions_of_le P rs hn, hrest]
      rfl
  rw [executions, hnil]
  rfl

theorem executions_concat {r : ι × Nat} {log : List (Event ι S)} {e : Event ι S} (he : e.isExec = false) :
    executions r (log ++ [e]) = executions r log := by
  rw [executions, executions, ofRequest_append, List.countP_append, Nat.add_eq_left, List.countP_eq_zero]
  intro e' he'
  rw [List.mem_singleton.mp (List.mem_filter.mp he').1, he]
  exact Bool.false_ne_true

/-- Only hakase executes blocks. -/
theorem executions_friend (h : Inv P h₀ loc₀ st) (i : ι) (r : ι × Nat) :
    executions r (P.step st (.friend i)).log = executions r st.log := by
  cases hpc : (st.friend i).pc with
  | block s => exact absurd hpc (friend_not_in_block P h i s)
  | next =>
      rw [P.step_eq (p := .friend i) hpc, Program.stepAt, Program.stepNext]
      split <;> rfl
  | asm is =>
      rw [P.step_eq (p := .friend i) hpc, Program.stepAt, Program.stepAsm.eq_def]
      split
      · rfl
      · rfl
      · rfl
      · dsimp only
        split
        · exact executions_concat rfl
        · rfl
  | lockCas s | testWait s | testSet s =>
      rw [P.step_eq (p := .friend i) hpc, Program.stepAt]
      split
      · first | rfl | exact executions_concat rfl
      · first | rfl | exact executions_concat rfl
  | callWait s | callSet s | unlock s | recvClear | recvAnswer =>
      rw [P.step_eq (p := .friend i) hpc]
      exact executions_concat rfl
  | lockTest s | lockPause s | callLong s | recvTest | recvCallSet | recvTestSet | recvCallLong | recvRet b | lost =>
      rw [P.step_eq (p := .friend i) hpc]
      rfl

/-- **Every `_OFFLOAD` returns.** From every state the system can get into, and under every schedule that goes on in
rounds in which each party has a turn, in whatever order and however often, all `_OFFLOAD`s of all cores have returned
after `eventWeight ι * (totalEvents P + 1)` rounds: each block has been executed once, and hakase's state and the
cores' are those of running the blocks one after another in the order in which `_lock` was acquired. -/
theorem offloads_complete [Fintype ι] (h : H) (loc : ι → L) (ts : List (Party ι)) (rounds : List (List (Party ι)))
    (hr : ∀ r ∈ rounds, Lib.IsRound r) (hn : eventWeight ι * (totalEvents P + 1) ≤ rounds.length) :
    let st := Lib.run P.step (P.init h loc) (ts ++ rounds.flatten)
    (∀ i, Finished P st i) ∧
    (∀ i n, n < (P.prog i).length → executions (i, n) st.log = 1) ∧
    st.h = ((Serial.init P h loc).runs P (acquired st.log)).h ∧
    st.loc = ((Serial.init P h loc).runs P (acquired st.log)).loc ∧
    ∀ i, sitesOf i (acquired st.log) = P.prog i := by
  intro st
  have hinv : Inv P h loc st := inv_run P _
  have hprog := progress P h loc
  have hstart := hprog.keep_run ⟨inv_init P, short_init P h loc⟩ ts
  have hfin : ∀ i, Finished P st i := by
    have := hprog.over_of_rounds hstart hr ((rank_lt P hstart.2).trans_le hn)
    rwa [← Lib.run_append] at this
  refine ⟨hfin, fun i n hlt => executions_of_done P hinv ?_, finished_serial P hinv hfin⟩
  rw [(hfin i).2]
  exact hlt

/-! ## A program -/

/-- Two cores, each with one block that counts itself in hakase's state. -/
def countingProgram : Program (Fin 2) Unit Nat Unit where
  addr
    | .waitRet _ => 1
    | .setRet _ => 2
    | .longRet _ => 3
    | .recvSetRet => 4
    | .recvLongRet => 5
  decode w :=
    if w = 1 then some (.waitRet ()) else if w = 2 then some (.setRet ()) else if w = 3 then some (.longRet ())
    else if w = 4 then some .recvSetRet else if w = 5 then some .recvLongRet else none
  decode_addr l := by cases l <;> rfl
  owner w := if w = 0x1000 then some 0 else if w = 0x2000 then some 1 else none
  prog _ := [()]
  own _ _ c l := (c, l)
  code _ n c l := (n + 1, c, l)
  poll _ := { rbx := 0, rbp := 0, r12 := 0, r13 := 0, r14 := 0, r15 := 0, rsp := 0x3000 }
  ctx₀ i := { rbx := 0, rbp := 0, r12 := 0, r13 := 0, r14 := 0, r15 := 0, rsp := if i = 0 then 0x1000 else 0x2000 }
  owner_ctx₀ i := by
    match i with
    | 0 => rfl
    | 1 => rfl
  owner_own _ _ _ _ h := h
  code_rsp _ _ _ _ := rfl

/-- Hakase, core 0 and core 1 in turn. -/
def countingRounds : List (List (Party (Fin 2))) := List.replicate 4000 [.hakase, .friend 0, .friend 1]

/-- Both cores are through after these rounds, from the state in which core 1 has moved once. -/
theorem offloads_complete_counting :
    let st := Lib.run countingProgram.step (countingProgram.init 0 fun _ => ()) ([.friend 1] ++ countingRounds.flatten)
    Finished countingProgram st 0 ∧ Finished countingProgram st 1 := by
  have hfin := (offloads_complete countingProgram 0 (fun _ => ()) [.friend 1] countingRounds ?_ ?_).1
  · exact ⟨hfin 0, hfin 1⟩
  · intro r hr p
    obtain rfl := List.eq_of_mem_replicate hr
    cases p with
    | hakase => exact List.mem_cons_self
    | friend i =>
        match i with
        | 0 => exact List.mem_cons_of_mem _ List.mem_cons_self
        | 1 => exact List.mem_cons_of_mem _ (List.mem_cons_of_mem _ List.mem_cons_self)
  · rw [countingRounds, List.length_replicate]
    decide

end Toshokan.Offload
