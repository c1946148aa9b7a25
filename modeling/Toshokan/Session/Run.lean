import Toshokan.Friend.Init
import Toshokan.Offload.Fair

/-!
# A session: hakase's main loop and `friend_init` on every core

```
while (!is_friend_stopped()) {
  offloader_tryreceive();
  usleep(1000);
}
```

The cores run `friend_init`, and in `friend_main` their `_OFFLOAD`s; hakase receives these until it finds the flag set.

* `State`, `step` : `friend_init`, the `Offloader` and the loop together; `up` : the cores that come up;
* `nextPhase` : what a step of `friend_init` does to the phase of the core that takes it;
* `Inv`, `inv_run` : how they fit together.
-/

namespace Toshokan.Session

open Friend (Boot)
open Offload (Party Program Finished)

/-- Where hakase is: at the test of the loop, in `offloader_tryreceive`, or behind the loop. -/
inductive Main
  | test
  | receive
  | exited
  deriving DecidableEq, Repr

structure State (B : Boot) (S H L : Type) where
  boot : B.State
  off : Offload.State (Fin B.cores) S H L
  main : Main

variable {B : Boot} {S H L : Type} (P : Program (Fin B.cores) S H L)

section Step
variable [DecidableEq S]

instance (st : Offload.State (Fin B.cores) S H L) (c : Fin B.cores) : Decidable (Finished P st c) :=
  inferInstanceAs (Decidable (_ ∧ _))

/-- Core `c` is in `friend_main`, which it leaves after its last `_OFFLOAD`. -/
def InMain (st : State B S H L) (c : Fin B.cores) : Prop := st.boot.phase c = .main ∧ ¬ Finished P st.off c

instance (st : State B S H L) (c : Fin B.cores) : Decidable (InMain P st c) := inferInstanceAs (Decidable (_ ∧ _))

def stepCore (st : State B S H L) (c : Fin B.cores) : State B S H L :=
  if InMain P st c then { st with off := P.step st.off (.friend c) } else { st with boot := B.step st.boot c }

def stepHakase (st : State B S H L) : State B S H L :=
  match st.main with
  | .test => { st with main := if B.isFriendStopped st.boot = true then .exited else .receive }
  -- `offloader_tryreceive` calls `TryReceive` until it returns `false`
  | .receive =>
      { st with
        off := P.step st.off .hakase
        main := if st.off.hakase.pc = .recvRet false then .test else .receive }
  | .exited => st

theorem stepHakase_test {st : State B S H L} (h : st.main = .test) : stepHakase P st =
    ⟨st.boot, st.off, if B.isFriendStopped st.boot = true then .exited else .receive⟩ := by
  rw [stepHakase, h]

theorem stepHakase_receive {st : State B S H L} (h : st.main = .receive) : stepHakase P st =
    ⟨st.boot, P.step st.off .hakase, if st.off.hakase.pc = .recvRet false then .test else .receive⟩ := by
  rw [stepHakase, h]

/-- One step of a party; a core that does not come up takes none. -/
def step (up : Fin B.cores → Bool) (st : State B S H L) : Party (Fin B.cores) → State B S H L
  | .friend c => if up c = true then stepCore P st c else st
  | .hakase => stepHakase P st

def init (h : H) (loc : Fin B.cores → L) : State B S H L := ⟨B.init, P.init h loc, .test⟩

end Step

/-! ## The phases of `friend_init` -/

section Phases
open Friend.Phase
variable {bt : B.State} {c : Fin B.cores}

def nextPhase (bt : B.State) : Friend.Phase → Friend.Phase
  | .start => if bt.initCount = 0 then .ctor 0 else .call
  | .ctor k => if k < B.initArray then .inCtor k else .call
  | .inCtor k => .ctor (k + 1)
  | .call => .main
  | .main => .back
  | .back => .test (bt.returnedCount + 1)
  | .test r => if r = bt.initCount then .dtor 0 else .done
  | .dtor k => if k < B.finiArray then .inDtor k else .setFlag
  | .inDtor k => .dtor (k + 1)
  | .setFlag | .done => .done

theorem phase_boot : (B.step bt c).phase = Function.update bt.phase c (nextPhase bt (bt.phase c)) := by
  cases hph : bt.phase c with
  | done =>
      have hsame : Function.update bt.phase c .done = bt.phase := by rw [← hph, Function.update_eq_self]
      rw [B.step_eq hph, nextPhase, hsame]
      rfl
  | ctor k | test r | dtor k =>
      rw [B.step_eq hph, Boot.stepAt, nextPhase]
      split <;> rfl
  | start | inCtor k | call | main | back | inDtor k | setFlag =>
      rw [B.step_eq hph]
      rfl

theorem phase_boot_self : (B.step bt c).phase c = nextPhase bt (bt.phase c) := by
  rw [phase_boot, Function.update_self]

theorem phase_boot_of_ne {c' : Fin B.cores} (h : c' ≠ c) : (B.step bt c).phase c' = bt.phase c' := by
  rw [phase_boot, Function.update_of_ne h]

theorem begun_next {ph : Friend.Phase} (h : ph.begun = true) : (nextPhase bt ph).begun = true := by
  cases ph with
  | start => cases h
  | ctor k | test r | dtor k =>
      rw [nextPhase]
      split <;> rfl
  | inCtor k | call | main | back | inDtor k | setFlag | done => rfl

theorem entered_next {ph : Friend.Phase} (h : ph.entered = true) : (nextPhase bt ph).entered = true := by
  cases ph with
  | start | ctor k | inCtor k | call => cases h
  | test r | dtor k =>
      rw [nextPhase]
      split <;> rfl
  | main | back | inDtor k | setFlag | done => rfl

theorem returned_next {ph : Friend.Phase} (h : (nextPhase bt ph).returned = true) : ph.returned = true ∨ ph = .main := by
  cases ph with
  | main => exact .inr rfl
  | start | ctor k =>
      rw [nextPhase] at h
      split at h <;> cases h
  | inCtor k | call => cases h
  | back | test r | dtor k | inDtor k | setFlag | done => exact .inl rfl

theorem stopped_boot (h : B.isFriendStopped bt = true) : B.isFriendStopped (B.step bt c) = true := by
  cases hph : bt.phase c with
  | setFlag =>
      rw [B.step_eq hph]
      rfl
  | ctor k | test r | dtor k =>
      rw [B.step_eq hph, Boot.stepAt]
      split <;> exact h
  | start | inCtor k | call | main | back | inDtor k | done =>
      rw [B.step_eq hph]
      exact h

end Phases

/-! ## How they fit together -/

section
variable {up : Fin B.cores → Bool} {h₀ : H} {loc₀ : Fin B.cores → L} {st : State B S H L} {c : Fin B.cores}

/-- `friend_init` and the `Offloader` are what they are by themselves; a core has its `_OFFLOAD`s between entering and
leaving `friend_main`, and hakase calls `TryReceive` in its loop only. -/
structure Inv (up : Fin B.cores → Bool) (h₀ : H) (loc₀ : Fin B.cores → L) (st : State B S H L) : Prop where
  boot : ∃ us, st.boot = Lib.run B.step B.init us
  off : Offload.Inv P h₀ loc₀ st.off
  short : Offload.Short st.off
  before : ∀ c, (st.boot.phase c).entered = false → (st.off.friend c).pc = .next ∧ (st.off.friend c).done = 0
  after : ∀ c, (st.boot.phase c).returned = true → Finished P st.off c
  loop : st.main ≠ .receive → st.off.hakase.pc = .next
  asleep : ∀ c, up c = false → st.boot.phase c = .start
  stopped : st.main = .exited → B.isFriendStopped st.boot = true

theorem inv_init : Inv P up h₀ loc₀ (init P h₀ loc₀) where
  boot := ⟨[], rfl⟩
  off := Offload.inv_init P
  short := Offload.short_init P h₀ loc₀
  before _ _ := ⟨rfl, rfl⟩
  after _ h := by cases h
  loop _ := rfl
  asleep _ _ := rfl
  stopped h := by cases h

theorem friend_step_of_ne {p : Party (Fin B.cores)} (hp : p ≠ .friend c) :
    (P.step st.off p).friend c = st.off.friend c :=
  Offload.step_thread_of_ne P st.off (q := .friend c) hp.symm

theorem Inv.inMain (h : Inv P up h₀ loc₀ st) (hpc : (st.off.friend c).pc ≠ .next) : InMain P st c := by
  refine ⟨?_, fun hf => hpc hf.1⟩
  have hent : (st.boot.phase c).entered ≠ false := fun he => hpc (h.before c he).1
  have hret : (st.boot.phase c).returned ≠ true := fun hr => hpc (h.after c hr).1
  cases hph : st.boot.phase c <;> simp_all [Friend.Phase.entered, Friend.Phase.returned]

theorem Inv.up_of_begun (h : Inv P up h₀ loc₀ st) (hc : st.boot.phase c ≠ .start) : up c = true := by
  by_contra hup
  exact hc (h.asleep c (Bool.eq_false_of_not_eq_true hup))

variable [DecidableEq S]

theorem inv_stepCore (h : Inv P up h₀ loc₀ st) (hup : up c = true) : Inv P up h₀ loc₀ (stepCore P st c) := by
  unfold stepCore
  split
  · rename_i hin
    have hother : ∀ {c'}, c' ≠ c → (P.step st.off (.friend c)).friend c' = st.off.friend c' :=
      fun hc' => friend_step_of_ne P (by simpa using hc'.symm)
    refine ⟨h.boot, Offload.inv_step P _ h.off, Offload.short_step P _ _ h.short, fun c' he => ?_, fun c' hr => ?_,
      fun hm => ?_, h.asleep, h.stopped⟩
    · have hc' : c' ≠ c := by
        rintro rfl
        rw [hin.1] at he
        cases he
      dsimp only
      rw [hother hc']
      exact h.before c' he
    · exact Offload.finished_step P (h.after c' hr) _
    · rw [← h.loop hm]
      exact congrArg Offload.Thread.pc (Offload.step_thread_of_ne P st.off (p := .friend c) (q := .hakase) (by simp))
  · rename_i hin
    obtain ⟨us, hus⟩ := h.boot
    refine ⟨⟨us ++ [c], by rw [Lib.run_concat, ← hus]⟩, h.off, h.short, fun c' he => ?_, fun c' hr => ?_, h.loop,
      fun c' hc' => ?_, fun hm => stopped_boot (h.stopped hm)⟩
    all_goals dsimp only at *
    all_goals by_cases hcc : c' = c
    · subst hcc
      rw [phase_boot_self] at he
      refine h.before c' (Bool.eq_false_of_not_eq_true fun hent => ?_)
      rw [entered_next hent] at he
      cases he
    · rw [phase_boot_of_ne hcc] at he
      exact h.before c' he
    · subst hcc
      rw [phase_boot_self] at hr
      rcases returned_next hr with hr | hmain
      · exact h.after c' hr
      · by_contra hf
        exact hin ⟨hmain, hf⟩
    · rw [phase_boot_of_ne hcc] at hr
      exact h.after c' hr
    · subst hcc
      rw [hup] at hc'
      cases hc'
    · rw [phase_boot_of_ne hcc]
      exact h.asleep c' hc'

theorem inv_stepHakase (h : Inv P up h₀ loc₀ st) : Inv P up h₀ loc₀ (stepHakase P st) := by
  cases hm : st.main with
  | exited =>
      rw [stepHakase, hm]
      exact h
  | test =>
      rw [stepHakase_test P hm]
      refine ⟨h.boot, h.off, h.short, h.before, h.after, fun _ => h.loop (by rw [hm]; simp), h.asleep, fun he => ?_⟩
      dsimp only at he
      split at he
      · rename_i hs
        exact hs
      · cases he
  | receive =>
      rw [stepHakase_receive P hm]
      have hother : ∀ c, (P.step st.off .hakase).friend c = st.off.friend c := fun c => friend_step_of_ne P (by simp)
      refine ⟨h.boot, Offload.inv_step P _ h.off, Offload.short_step P _ _ h.short, fun c he => ?_, fun c hr => ?_,
        fun hne => ?_, h.asleep, fun he => ?_⟩
      · dsimp only
        rw [hother]
        exact h.before c he
      · exact Offload.finished_step P (h.after c hr) _
      · dsimp only at hne ⊢
        split at hne
        · rename_i hpc
          rw [P.step_eq (p := .hakase) hpc]
          rfl
        · exact absurd rfl hne
      · dsimp only at he
        split at he <;> cases he

/-- **A step keeps the invariant.** -/
theorem inv_step (h : Inv P up h₀ loc₀ st) (p : Party (Fin B.cores)) : Inv P up h₀ loc₀ (step P up st p) := by
  cases p with
  | hakase => exact inv_stepHakase P h
  | friend c =>
      rw [step]
      split
      · rename_i hup
        exact inv_stepCore P h hup
      · exact h

theorem inv_run (ts : List (Party (Fin B.cores))) :
    Inv P up h₀ loc₀ (Lib.run (step P up) (init P h₀ loc₀) ts) :=
  Lib.run_induct _ (inv_init P) (fun _ p h => inv_step P h p) ts

end

end Toshokan.Session
