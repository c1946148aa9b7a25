import Mathlib.Data.BitVec
import Toshokan.Lib.Count
import Toshokan.Lib.Sched

/-!
# `friend/init.cc`: `friend_init` on every core

All cores that `boot` starts run `friend_init`, each from whenever it comes up. The accesses to the shared counters,
the calls and returns of constructors, `friend_main` and destructors, and the store of the flag are steps of their own.

* `Boot` : the cores and the two tables; `Phase` : where a core stands in `friend_init`; `step` : one step of one core;
* `Event` : the calls and returns, for the specification (no step reads the log);
* `Counts` : `init_count` and `returned_count` count the cores that have begun and those that have come back;
  `counts_run` : in every state of every run.
-/

namespace Toshokan.Friend

/-- A friend binary and the cores it is started on. `boot` counts these in an `int`; the tables are given by their
numbers of entries. -/
structure Boot where
  cores : Nat
  cores_lt : cores < 2 ^ 31
  initArray : Nat
  finiArray : Nat

inductive Phase
  | start
  /-- At the loop test, `ctor = __init_array_start + k`. -/
  | ctor (k : Nat)
  | inCtor (k : Nat)
  | call
  | main
  | back
  /-- Has `returned_count` incremented to `r`; `init_count` is still to be read. -/
  | test (r : BitVec 32)
  | dtor (k : Nat)
  | inDtor (k : Nat)
  | setFlag
  | done
  deriving DecidableEq, Repr

def Phase.begun : Phase → Bool
  | .start => false
  | _ => true

def Phase.entered : Phase → Bool
  | .start | .ctor _ | .inCtor _ | .call => false
  | _ => true

def Phase.returned : Phase → Bool
  | .start | .ctor _ | .inCtor _ | .call | .main => false
  | _ => true

def Phase.counted : Phase → Bool
  | .test _ | .dtor _ | .inDtor _ | .setFlag | .done => true
  | _ => false

/-- Executes the `__fini_array` loop or has the flag still to set. -/
def Phase.finalising : Phase → Bool
  | .dtor _ | .inDtor _ | .setFlag => true
  | _ => false

theorem Phase.returned_of_counted {ph : Phase} (h : ph.counted = true) : ph.returned = true := by
  cases ph <;> first | rfl | exact h

theorem Phase.begun_of_returned {ph : Phase} (h : ph.returned = true) : ph.begun = true := by
  cases ph <;> first | rfl | exact h

theorem Phase.begun_of_finalising {ph : Phase} (h : ph.finalising = true) : ph.begun = true := by
  cases ph <;> first | rfl | exact h

/-- Calls and returns. `fini` is the entry to the `__fini_array` loop. -/
inductive Event (n : Nat)
  | ctor (c : Fin n) (k : Nat)
  | ctorRet (c : Fin n) (k : Nat)
  | enter (c : Fin n)
  | leave (c : Fin n)
  | fini (c : Fin n)
  | dtor (c : Fin n) (k : Nat)
  | dtorRet (c : Fin n) (k : Nat)
  deriving DecidableEq, Repr

namespace Boot

variable (B : Boot)

structure State where
  initCount : BitVec 32
  returnedCount : BitVec 32
  /-- `__toshokan_sync_hakase_and_friend`. -/
  sync : BitVec 32
  phase : Fin B.cores → Phase
  log : List (Event B.cores)

variable {B}

def State.goto (st : B.State) (c : Fin B.cores) (ph : Phase) : B.State :=
  { st with phase := Function.update st.phase c ph }

def State.emit (st : B.State) (e : Event B.cores) : B.State := { st with log := st.log ++ [e] }

variable (B)

def stepAt (st : B.State) (c : Fin B.cores) : Phase → B.State
  | .start =>
      { st with initCount := st.initCount + 1 }.goto c (if st.initCount = 0 then .ctor 0 else .call)
  | .ctor k => if k < B.initArray then (st.goto c (.inCtor k)).emit (.ctor c k) else st.goto c .call
  | .inCtor k => (st.goto c (.ctor (k + 1))).emit (.ctorRet c k)
  | .call => (st.goto c .main).emit (.enter c)
  | .main => (st.goto c .back).emit (.leave c)
  | .back => { st with returnedCount := st.returnedCount + 1 }.goto c (.test (st.returnedCount + 1))
  | .test r => if r = st.initCount then (st.goto c (.dtor 0)).emit (.fini c) else st.goto c .done
  | .dtor k => if k < B.finiArray then (st.goto c (.inDtor k)).emit (.dtor c k) else st.goto c .setFlag
  | .inDtor k => (st.goto c (.dtor (k + 1))).emit (.dtorRet c k)
  | .setFlag => { st with sync := 1 }.goto c .done
  | .done => st

def step (st : B.State) (c : Fin B.cores) : B.State := B.stepAt st c (st.phase c)

theorem step_eq {st : B.State} {c : Fin B.cores} {ph : Phase} (h : st.phase c = ph) :
    B.step st c = B.stepAt st c ph := by
  rw [step, h]

def init : B.State :=
  { initCount := 0, returnedCount := 0, sync := 0, phase := fun _ => .start, log := [] }

def isFriendStopped (st : B.State) : Bool := st.sync == 1

/-! ## The counters -/

structure Counts (st : B.State) : Prop where
  init : st.initCount.toNat = Lib.count Phase.begun st.phase
  returned : st.returnedCount.toNat = Lib.count Phase.counted st.phase

variable {B}

theorem count_le (p : Phase → Bool) (f : Fin B.cores → Phase) : Lib.count p f ≤ B.cores := by
  have := Lib.count_le_card p f
  rwa [Fintype.card_fin] at this

theorem toNat_add_one {x : BitVec 32} (h : x.toNat ≤ B.cores) : (x + 1).toNat = x.toNat + 1 := by
  have hlt := B.cores_lt
  rw [BitVec.toNat_add, show (1 : BitVec 32).toNat = 1 from rfl, Nat.mod_eq_of_lt]
  omega

/-- The counters stay right if they move with the phase of the core. -/
theorem Counts.update {st st' : B.State} (h : B.Counts st) {c : Fin B.cores} {ph : Phase}
    (hp : st'.phase = Function.update st.phase c ph)
    (hi : st'.initCount.toNat + (st.phase c).begun.toNat = st.initCount.toNat + ph.begun.toNat)
    (hr : st'.returnedCount.toNat + (st.phase c).counted.toNat = st.returnedCount.toNat + ph.counted.toNat) :
    B.Counts st' := by
  have hcb := Lib.count_update Phase.begun st.phase c ph
  have hcr := Lib.count_update Phase.counted st.phase c ph
  rw [h.init] at hi
  rw [h.returned] at hr
  refine ⟨?_, ?_⟩
  · rw [hp]
    omega
  · rw [hp]
    omega

theorem counts_init : B.Counts B.init := by
  refine ⟨?_, ?_⟩
  · exact (Lib.count_eq_zero_iff.mpr fun _ => rfl).symm
  · exact (Lib.count_eq_zero_iff.mpr fun _ => rfl).symm

theorem counts_step (st : B.State) (c : Fin B.cores) (h : B.Counts st) : B.Counts (B.step st c) := by
  have hinit : (st.initCount + 1).toNat = st.initCount.toNat + 1 :=
    toNat_add_one (B := B) (by rw [h.init]; exact count_le _ _)
  have hret : (st.returnedCount + 1).toNat = st.returnedCount.toNat + 1 :=
    toNat_add_one (B := B) (by rw [h.returned]; exact count_le _ _)
  cases hph : st.phase c with
  | start =>
      rw [B.step_eq hph]
      refine h.update rfl ?_ ?_
      · rw [hph]
        split
        · exact hinit
        · exact hinit
      · rw [hph]
        split <;> rfl
  | back =>
      rw [B.step_eq hph]
      refine h.update rfl ?_ ?_
      · rw [hph]
        rfl
      · rw [hph]
        exact hret
  | ctor k | test r | dtor k =>
      rw [B.step_eq hph, stepAt]
      split
      · exact h.update rfl (by rw [hph]; rfl) (by rw [hph]; rfl)
      · exact h.update rfl (by rw [hph]; rfl) (by rw [hph]; rfl)
  | inCtor k | call | main | inDtor k | setFlag =>
      rw [B.step_eq hph]
      exact h.update rfl (by rw [hph]; rfl) (by rw [hph]; rfl)
  | done =>
      rw [B.step_eq hph]
      exact h

theorem counts_run (ts : List (Fin B.cores)) : B.Counts (Lib.run B.step B.init ts) :=
  Lib.run_induct B.step counts_init counts_step ts

theorem Counts.returned_le {st : B.State} (h : B.Counts st) : st.returnedCount.toNat ≤ st.initCount.toNat := by
  rw [h.returned, h.init]
  apply Lib.count_mono
  intro c hc
  exact Phase.begun_of_returned (Phase.returned_of_counted hc)

theorem Counts.toInt_le {st : B.State} (h : B.Counts st) : st.returnedCount.toInt ≤ st.initCount.toInt := by
  have hle := h.returned_le
  have hlt := B.cores_lt
  have hub : st.initCount.toNat ≤ B.cores := by
    rw [h.init]
    exact count_le _ _
  rw [BitVec.toInt_eq_toNat_of_lt (by omega), BitVec.toInt_eq_toNat_of_lt (by omega)]
  omega

theorem Counts.initCount_eq_zero_iff {st : B.State} (h : B.Counts st) :
    st.initCount = 0 ↔ ∀ c, st.phase c = .start := by
  have hph : ∀ ph : Phase, ph.begun = false ↔ ph = .start := by
    intro ph
    cases ph <;> simp [Phase.begun]
  rw [← BitVec.toNat_inj, h.init, show (0 : BitVec 32).toNat = 0 from rfl, Lib.count_eq_zero_iff]
  exact forall_congr' fun c => hph _

theorem Counts.initCount_eq_cores_iff {st : B.State} (h : B.Counts st) :
    st.initCount.toNat = B.cores ↔ ∀ c, (st.phase c).begun = true := by
  rw [h.init, ← Lib.count_eq_card_iff, Fintype.card_fin]

end Boot
end Toshokan.Friend
