import Mathlib.Data.List.Nodup
import Mathlib.Tactic.Ring
import Toshokan.FriendLoader.CpuDevice

/-!
# `hakase/hakase.cc`: `boot`

`boot(max)` opens `/dev/friend_cpu1`, `/dev/friend_cpu2`, … until a device is missing or the limit is reached, and
returns how many it has opened.

* `Dev` : the device files of the cores; `lookup_bootName` : which of them a name stands for;
* `boot` : the function, with a record of the `cpu_start`s that its opens have triggered;
* `Reached` : the cores it comes to; `Startable` : those that `cpu_start` can start; `bootFrom_induct` : induction along the
  loop; `bootFrom_spec` : its record;
* `boot_counts_iff` : when it returns the number of started cores; `failed_start_counted` : a case where it does not.
-/

namespace Toshokan.Hakase
open FriendLoader

/-- The device files: for each minor number below `num_possible_cpus() - 1`, whether `device_create` made one. -/
structure Dev where
  possible : Nat
  created : Nat → Bool

def devName (minor : Nat) : List Char := "friend_cpu".toList ++ Nat.toDigits 10 (minor - MINOR_BASE + 1)

/-- The name `/dev/friend_cpu%d` that `boot` writes to its buffer. -/
def bootName (i : Nat) : List Char := "/dev/friend_cpu".toList ++ Nat.toDigits 10 i

namespace Dev

variable (D : Dev)

def lookup (path : List Char) : Option Nat :=
  (List.range (D.possible - 1)).find? fun m => D.created m && "/dev/".toList ++ devName m == path

def HasNode (i : Nat) : Prop := 1 ≤ i ∧ i < D.possible ∧ D.created (i - 1) = true

instance (i : Nat) : Decidable (D.HasNode i) := inferInstanceAs (Decidable (_ ∧ _))

theorem devName_eq_bootName_iff {m i : Nat} : "/dev/".toList ++ devName m = bootName i ↔ m + 1 = i := by
  have hpath : "/dev/".toList ++ devName m = bootName (m + 1) := by
    unfold devName bootName MINOR_BASE
    rfl
  rw [hpath]
  constructor
  · intro h
    have hdigits := List.append_cancel_left h
    rw [← Nat.ofDigitChars_ten_toDigits (n := m + 1), hdigits, Nat.ofDigitChars_ten_toDigits]
  · rintro rfl
    rfl

theorem lookup_bootName (i : Nat) : D.lookup (bootName i) = if D.HasNode i then some (i - 1) else none := by
  have hp : ∀ m, (D.created m && "/dev/".toList ++ devName m == bootName i) = true ↔ D.created m = true ∧ m + 1 = i := by
    intro m
    rw [Bool.and_eq_true, beq_iff_eq, devName_eq_bootName_iff]
  unfold lookup
  split
  · rename_i h
    obtain ⟨h1, hlt, hc⟩ := h
    cases hf : (List.range (D.possible - 1)).find? fun m => D.created m && "/dev/".toList ++ devName m == bootName i with
    | none =>
        rw [List.find?_eq_none] at hf
        exact absurd ((hp (i - 1)).mpr ⟨hc, by omega⟩) (hf (i - 1) (List.mem_range.mpr (by omega)))
    | some m =>
        have hm := List.find?_some hf
        have heq := ((hp m).mp hm).2
        congr 1
        omega
  · rename_i h
    rw [List.find?_eq_none]
    intro m hm hcond
    obtain ⟨hc, rfl⟩ := (hp m).mp hcond
    rw [List.mem_range] at hm
    exact h ⟨by omega, by omega, hc⟩

theorem lookup_lt {i m : Nat} (h : D.lookup (bootName i) = some m) : i < D.possible := by
  rw [lookup_bootName] at h
  split at h
  · rename_i hn
    exact hn.2.1
  · cases h

end Dev

/-- What `boot` returns, the `cpu_start`s with their results, and the processors as it leaves them. -/
structure BootRun where
  ret : Int
  starts : List (Nat × Int)
  cpus : Cpus

/-- The loop of `boot`, from core `i` on. `t i` is what happens during the `cpu_start` of core `i`. -/
def bootFrom (D : Dev) (T : Topology) (t : Nat → Attempt) (max : Int) (i : Nat) (s : Cpus) : BootRun :=
  match _h : D.lookup (bootName i) with
  | none => ⟨(i : Int) - 1, [], s⟩
  | some minor =>
      let start := (cpuOf minor, (cpuStart T s (cpuOf minor) (t i)).1)
      let (fd, s) := cpudeviceOpen T s minor (t i)
      if fd < 0 then ⟨(i : Int) - 1, [start], s⟩
      else if (i : Int) = max then ⟨i, [start], s⟩
      else
        let rest := bootFrom D T t max (i + 1) s
        { rest with starts := start :: rest.starts }
termination_by D.possible - i
decreasing_by
  have := D.lookup_lt _h
  omega

def boot (D : Dev) (T : Topology) (t : Nat → Attempt) (max : Int) (s : Cpus) : BootRun := bootFrom D T t max 1 s

/-- Core `j` has a device, as have all from `i` on, and the limit is not among those before it. -/
structure Reached (D : Dev) (max : Int) (i j : Nat) : Prop where
  le : i ≤ j
  nodes : ∀ k, i ≤ k → k ≤ j → D.HasNode k
  limit : ∀ k, i ≤ k → k < j → (k : Int) ≠ max

/-- Core `i` is present, Linux gives it up if it is online, it is not the boot processor, and the last send status has
bit 31 clear. -/
def Startable (T : Topology) (s : Cpus) (t : Attempt) (i : Nat) : Prop :=
  T.present i = true ∧ (s.online i = true → t.down = true) ∧ T.apicid i ≠ 0 ∧ t.apic.lastSend.msb = false

section
variable {D : Dev} {T : Topology} {t : Nat → Attempt} {max : Int} {i : Nat} {s : Cpus}

/-! ## The loop -/

theorem cpuOf_pred (h : D.HasNode i) : cpuOf (i - 1) = i := by
  have h1 := h.1
  unfold cpuOf MINOR_BASE
  omega

theorem bootFrom_missing (h : ¬ D.HasNode i) : bootFrom D T t max i s = ⟨(i : Int) - 1, [], s⟩ := by
  have hl := D.lookup_bootName i
  rw [if_neg h] at hl
  unfold bootFrom
  split
  · rfl
  · rename_i m hm
    rw [hl] at hm
    cases hm

theorem bootFrom_open (h : D.HasNode i) :
    bootFrom D T t max i s =
      if (i : Int) = max then ⟨i, [(i, (cpuStart T s i (t i)).1)], (cpuStart T s i (t i)).2⟩
      else
        let rest := bootFrom D T t max (i + 1) (cpuStart T s i (t i)).2
        { rest with starts := (i, (cpuStart T s i (t i)).1) :: rest.starts } := by
  have hl := D.lookup_bootName i
  rw [if_pos h] at hl
  rw [bootFrom]
  split
  · rename_i hm
    rw [hl] at hm
    cases hm
  · rename_i m hm
    rw [hl] at hm
    cases hm
    unfold cpudeviceOpen
    dsimp only
    rw [cpuOf_pred h, if_neg (Int.lt_irrefl 0)]

theorem startable_iff (h : D.HasNode i) : (cpuStart T s i (t i)).1 = 0 ↔ Startable T s (t i) i := by
  have h1 := h.1
  unfold Startable
  rw [cpuStart_eq_zero_iff]
  constructor
  · rintro ⟨hp, hd, -, ha, hm⟩
    exact ⟨hp, hd, ha, hm⟩
  · rintro ⟨hp, hd, ha, hm⟩
    exact ⟨hp, hd, by omega, ha, hm⟩

theorem startable_cpuStart {j : Nat} (hj : j ≠ i) (a : Attempt) :
    Startable T (cpuStart T s i (t i)).2 a j ↔ Startable T s a j := by
  unfold Startable
  rw [cpuStart_frame.1 j hj]

theorem reached_self (h : D.HasNode i) : Reached D max i i := by
  refine ⟨le_rfl, fun k h1 h2 => ?_, fun k h1 h2 => by omega⟩
  rw [show k = i by omega]
  exact h

theorem Reached.next {j : Nat} (h : D.HasNode i) (hi : (i : Int) ≠ max) (hr : Reached D max (i + 1) j) :
    Reached D max i j := by
  refine ⟨by have := hr.le; omega, fun k h1 h2 => ?_, fun k h1 h2 => ?_⟩
  · by_cases hk : k = i
    · rw [hk]
      exact h
    · exact hr.nodes k (by omega) h2
  · by_cases hk : k = i
    · rw [hk]
      exact hi
    · exact hr.limit k (by omega) h2

theorem Reached.of_ne {j : Nat} (hr : Reached D max i j) (hj : j ≠ i) : (i : Int) ≠ max ∧ Reached D max (i + 1) j := by
  have hle := hr.le
  refine ⟨hr.limit i le_rfl (by omega), by omega, fun k h1 h2 => hr.nodes k (by omega) h2,
    fun k h1 h2 => hr.limit k (by omega) h2⟩

/-- **Induction along the loop**: a device is missing, the limit is reached, or there is another turn. -/
theorem bootFrom_induct {P : Nat → Cpus → BootRun → Prop}
    (missing : ∀ i s, ¬ D.HasNode i → P i s ⟨(i : Int) - 1, [], s⟩)
    (limit : ∀ i s, D.HasNode i → (i : Int) = max →
      P i s ⟨i, [(i, (cpuStart T s i (t i)).1)], (cpuStart T s i (t i)).2⟩)
    (next : ∀ i s rest, D.HasNode i → (i : Int) ≠ max → P (i + 1) (cpuStart T s i (t i)).2 rest →
      P i s { rest with starts := (i, (cpuStart T s i (t i)).1) :: rest.starts })
    (i : Nat) (s : Cpus) : P i s (bootFrom D T t max i s) := by
  -- on the number of devices left
  induction hn : D.possible - i using Nat.strong_induction_on generalizing i s with
  | _ n ih =>
      by_cases h : D.HasNode i
      · have hlt := h.2.1
        rw [bootFrom_open h]
        split
        · rename_i hi
          exact limit i s h hi
        · rename_i hi
          exact next i s _ h hi (ih _ (by omega) (i + 1) _ rfl)
      · rw [bootFrom_missing h]
        exact missing i s h

/-- **The record of `boot`**: it counts the cores it comes to, and `cpu_start` returns 0 for those it can start. -/
theorem bootFrom_spec (D : Dev) (T : Topology) (t : Nat → Attempt) (max : Int) (i : Nat) (s : Cpus) :
    (bootFrom D T t max i s).ret = (i : Int) - 1 + (bootFrom D T t max i s).starts.length ∧
    (∀ r ∈ (bootFrom D T t max i s).starts, Reached D max i r.1 ∧ (r.2 = 0 ↔ Startable T s (t r.1) r.1)) ∧
    (∀ j, Reached D max i j → ∃ r ∈ (bootFrom D T t max i s).starts, r.1 = j) := by
  refine bootFrom_induct (P := fun i s run => run.ret = (i : Int) - 1 + run.starts.length ∧
    (∀ r ∈ run.starts, Reached D max i r.1 ∧ (r.2 = 0 ↔ Startable T s (t r.1) r.1)) ∧
    ∀ j, Reached D max i j → ∃ r ∈ run.starts, r.1 = j) ?_ ?_ ?_ i s
  · intro i s h
    refine ⟨by simp, by simp, fun j hj => ?_⟩
    exact absurd (hj.nodes i le_rfl hj.le) h
  · intro i s h hi
    refine ⟨by simp, fun r hr => ?_, fun j hj => ?_⟩
    · rw [List.mem_singleton] at hr
      subst hr
      exact ⟨reached_self h, startable_iff h⟩
    · have hji : j = i := by
        by_contra hne
        exact (hj.of_ne hne).1 hi
      exact ⟨_, List.mem_singleton_self _, hji.symm⟩
  · rintro i s rest h hi ⟨hret, hstarts, hall⟩
    refine ⟨?_, fun r hr => ?_, fun j hj => ?_⟩
    · rw [hret, List.length_cons]
      push_cast
      ring
    · rcases List.mem_cons.mp hr with rfl | hr
      · exact ⟨reached_self h, startable_iff h⟩
      · obtain ⟨hreach, hiff⟩ := hstarts r hr
        have hne : r.1 ≠ i := by
          have := hreach.le
          omega
        rw [startable_cpuStart hne] at hiff
        exact ⟨hreach.next h hi, hiff⟩
    · by_cases hji : j = i
      · exact ⟨_, List.mem_cons_self, hji.symm⟩
      · obtain ⟨r, hr, hrj⟩ := hall j (hj.of_ne hji).2
        exact ⟨r, List.mem_cons_of_mem _ hr, hrj⟩

end

/-! ## Counting -/

theorem reached_one_iff {D : Dev} {max : Int} {j : Nat} (hj : 1 ≤ j) :
    Reached D max 1 j ↔ (∀ k, 1 ≤ k → k ≤ j → D.HasNode k) ∧ (max ≤ 0 ∨ (j : Int) ≤ max) := by
  constructor
  · intro h
    refine ⟨h.nodes, ?_⟩
    by_contra hlim
    rw [not_or] at hlim
    exact h.limit max.toNat (by omega) (by omega) (by omega)
  · rintro ⟨hn, hlim⟩
    exact ⟨hj, hn, fun k h1 h2 => by omega⟩

/-- **When `boot` counts right.** The value it returns is the number of cores whose `cpu_start` returned 0, iff every
core it comes to (with devices up to it and not beyond the limit) can be started. -/
theorem boot_counts_iff (D : Dev) (T : Topology) (t : Nat → Attempt) (max : Int) (s : Cpus) :
    (boot D T t max s).ret = ((boot D T t max s).starts.countP fun r => r.2 == 0) ↔
      ∀ i, 1 ≤ i → (∀ k, 1 ≤ k → k ≤ i → D.HasNode k) → (max ≤ 0 ∨ (i : Int) ≤ max) → Startable T s (t i) i := by
  obtain ⟨hret, hstarts, hall⟩ := bootFrom_spec D T t max 1 s
  unfold boot
  rw [hret, show ((1 : Nat) : Int) - 1 = 0 from rfl, Int.zero_add, Int.natCast_inj, eq_comm, List.countP_eq_length]
  constructor
  · intro h i hi hn hlim
    obtain ⟨r, hr, rfl⟩ := hall i ((reached_one_iff hi).mpr ⟨hn, hlim⟩)
    exact (hstarts r hr).2.mp (beq_iff_eq.mp (h r hr))
  · intro h r hr
    obtain ⟨hreach, hiff⟩ := hstarts r hr
    obtain ⟨hn, hlim⟩ := (reached_one_iff hreach.le).mp hreach
    exact beq_iff_eq.mpr (hiff.mpr (h r.1 hreach.le hn hlim))

/-- Four processors of which the second is not present: `boot` returns 3, two cores are started. -/
theorem failed_start_counted :
    let D : Dev := ⟨4, fun _ => true⟩
    let T : Topology := ⟨fun i => i != 2, fun i => i⟩
    let s : Cpus := ⟨fun i => i != 2, []⟩
    let t : Nat → Attempt := fun _ => Machine.delivered
    (boot D T t 0 s).ret = 3 ∧ (boot D T t 0 s).starts = [(1, 0), (2, -1), (3, 0)] ∧
      (boot D T t 0 s).ret ≠ ((boot D T t 0 s).starts.countP fun r => r.2 == 0) := by
  intro D T s t
  have hstarts : (boot D T t 0 s).starts = [(1, 0), (2, -1), (3, 0)] := by
    unfold boot
    rw [bootFrom_open (by decide), if_neg (by decide), bootFrom_open (by decide), if_neg (by decide),
      bootFrom_open (by decide), if_neg (by decide), bootFrom_missing (by decide)]
    decide
  have hret : (boot D T t 0 s).ret = 3 := by
    have hspec := (bootFrom_spec D T t 0 1 s).1
    rw [show (bootFrom D T t 0 1 s).starts = _ from hstarts] at hspec
    exact hspec
  refine ⟨hret, hstarts, ?_⟩
  rw [hret, hstarts]
  decide

end Toshokan.Hakase
