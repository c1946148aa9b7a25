import Mathlib.Data.Nat.Digits.Defs
import Mathlib.Logic.Function.Iterate
import Toshokan.FriendLoader.Module
import Toshokan.Hakase.Boot

/-!
# The loop of `boot`

`boot` counts in an `int`, prints each name to a buffer of 20 bytes, and has no bound on its loop; it ends with the device
files that `cpudevice_init` has registered.

* `bootTurn` : one turn of the loop, on 32-bit values; `sprintfName` : what it prints;
* `turns_bootFrom` : with at most 8192 processors the loop ends, has written at most 20 bytes a turn, and leaves the record
  of `boot`; `map_fst_starts` : that record names the cores in order;
* `Dev.ofKernel` : the device files there are after `cpudevice_init`; `boot_addresses` : the cores that `boot` starts then.
-/

namespace Toshokan.Hakase
open FriendLoader

/-- `"/dev/friend_cpu%d"`, before the terminating zero. -/
def sprintfName (i : BitVec 32) : List Char :=
  "/dev/friend_cpu".toList ++ (if i.toInt < 0 then ['-'] else []) ++ Nat.toDigits 10 i.toInt.natAbs

inductive BootPc
  | turn (i : BitVec 32)
  | returned (ret : BitVec 32)
  deriving DecidableEq, Repr

/-- What `boot` has done: `writes` are the numbers of bytes its `sprintf`s have written to `buf`, `starts` the
`cpu_start`s with their results. -/
structure BootState where
  pc : BootPc
  writes : List Nat
  starts : List (Nat × Int)
  cpus : Cpus

def bootTurn (D : Dev) (T : Topology) (t : Nat → Attempt) (max : BitVec 32) (st : BootState) : BootState :=
  match st.pc with
  | .returned _ => st
  | .turn i =>
      let name := sprintfName i
      let st := { st with writes := st.writes ++ [name.length + 1] }
      match D.lookup name with
      | none => { st with pc := .returned (i - 1) }
      | some minor =>
          let start := (cpuOf minor, (cpuStart T st.cpus (cpuOf minor) (t i.toNat)).1)
          let (fd, cpus) := cpudeviceOpen T st.cpus minor (t i.toNat)
          let st := { st with starts := st.starts ++ [start], cpus := cpus }
          if fd < 0 then { st with pc := .returned (i - 1) }
          else if i = max then { st with pc := .returned i }
          else { st with pc := .turn (i + 1) }

def BUF_SIZE : Nat := 20

section
variable {D : Dev} {T : Topology} {t : Nat → Attempt} {max : BitVec 32} {i : Nat} {s : Cpus}

/-! ## One turn -/

theorem toInt_ofNat (hi : i ≤ 8192) : (BitVec.ofNat 32 i).toInt = i := by
  rw [BitVec.toInt_eq_toNat_of_lt (by rw [BitVec.toNat_ofNat]; omega), BitVec.toNat_ofNat, Nat.mod_eq_of_lt (by omega)]

theorem sprintfName_ofNat (hi : i ≤ 8192) : sprintfName (BitVec.ofNat 32 i) = bootName i := by
  unfold sprintfName
  rw [toInt_ofNat hi, if_neg (by omega), List.append_nil, Int.natAbs_natCast]
  rfl

/-- Fifteen characters, at most four digits and the terminating zero. -/
theorem length_bootName (hi : i ≤ 8192) : (bootName i).length + 1 ≤ BUF_SIZE := by
  have hdigits := Nat.toDigits_length 10 i 4 (by decide) (by omega)
  unfold bootName BUF_SIZE
  rw [List.length_append, show "/dev/friend_cpu".toList.length = 15 from rfl]
  omega

theorem ofNat_eq_iff_toInt (hi : i ≤ 8192) : BitVec.ofNat 32 i = max ↔ (i : Int) = max.toInt := by
  rw [← toInt_ofNat hi]
  exact BitVec.toInt_inj.symm

theorem ofNat_sub_one (hi : 1 ≤ i) : BitVec.ofNat 32 i - 1 = BitVec.ofInt 32 ((i : Int) - 1) := by
  obtain ⟨k, rfl⟩ : ∃ k, i = k + 1 := ⟨i - 1, by omega⟩
  rw [show BitVec.ofNat 32 (k + 1) = BitVec.ofNat 32 k + 1 from BitVec.ofNat_add k 1, BitVec.add_sub_cancel,
    Int.natCast_add, Int.natCast_one, Int.add_sub_cancel, BitVec.ofInt_natCast]

section
variable (writes : List Nat) (starts : List (Nat × Int))

theorem bootTurn_missing (h1 : 1 ≤ i) (hi : i ≤ 8192) (h : ¬ D.HasNode i) :
    bootTurn D T t max ⟨.turn (BitVec.ofNat 32 i), writes, starts, s⟩ =
      ⟨.returned (BitVec.ofInt 32 ((i : Int) - 1)), writes ++ [(bootName i).length + 1], starts, s⟩ := by
  have hl := D.lookup_bootName i
  rw [if_neg h] at hl
  unfold bootTurn
  dsimp only
  rw [sprintfName_ofNat hi, hl, ofNat_sub_one h1]

theorem bootTurn_open (hi : i ≤ 8192) (h : D.HasNode i) :
    bootTurn D T t max ⟨.turn (BitVec.ofNat 32 i), writes, starts, s⟩ =
      ⟨if (i : Int) = max.toInt then .returned (BitVec.ofInt 32 i) else .turn (BitVec.ofNat 32 (i + 1)),
        writes ++ [(bootName i).length + 1], starts ++ [(i, (cpuStart T s i (t i)).1)], (cpuStart T s i (t i)).2⟩ := by
  have hl := D.lookup_bootName i
  have hnat : (BitVec.ofNat 32 i).toNat = i := by rw [BitVec.toNat_ofNat, Nat.mod_eq_of_lt (by omega)]
  rw [if_pos h] at hl
  unfold bootTurn
  dsimp only
  rw [sprintfName_ofNat hi, hl]
  unfold cpudeviceOpen
  dsimp only
  rw [cpuOf_pred h, hnat, if_neg (Int.lt_irrefl 0)]
  by_cases hmax : (i : Int) = max.toInt
  · rw [if_pos ((ofNat_eq_iff_toInt hi).mpr hmax), if_pos hmax, BitVec.ofInt_natCast]
  · rw [if_neg ((ofNat_eq_iff_toInt hi).not.mpr hmax), if_neg hmax, BitVec.ofNat_add]
    rfl

end

/-! ## The whole loop -/

/-- **The loop ends with the record of `boot`.** -/
theorem turns_bootFrom (D : Dev) (T : Topology) (t : Nat → Attempt) (max : BitVec 32) (s : Cpus)
    (hN : D.possible ≤ 8192) (h1 : 1 ≤ i) (hi : i ≤ 8192) (writes : List Nat) (starts : List (Nat × Int)) :
    ∃ n ws, (bootTurn D T t max)^[n] ⟨.turn (BitVec.ofNat 32 i), writes, starts, s⟩ =
        ⟨.returned (BitVec.ofInt 32 (bootFrom D T t max.toInt i s).ret), writes ++ ws,
          starts ++ (bootFrom D T t max.toInt i s).starts, (bootFrom D T t max.toInt i s).cpus⟩ ∧
      ∀ w ∈ ws, w ≤ BUF_SIZE := by
  refine bootFrom_induct (P := fun i s run => 1 ≤ i → i ≤ 8192 → ∀ writes starts,
    ∃ n ws, (bootTurn D T t max)^[n] ⟨.turn (BitVec.ofNat 32 i), writes, starts, s⟩ =
      ⟨.returned (BitVec.ofInt 32 run.ret), writes ++ ws, starts ++ run.starts, run.cpus⟩ ∧ ∀ w ∈ ws, w ≤ BUF_SIZE)
    ?_ ?_ ?_ i s h1 hi writes starts
  · intro i s h h1 hi writes starts
    refine ⟨1, [(bootName i).length + 1], ?_, by simpa using length_bootName hi⟩
    rw [Function.iterate_one, bootTurn_missing writes starts h1 hi h, List.append_nil]
  · intro i s h hmax _ hi writes starts
    refine ⟨1, [(bootName i).length + 1], ?_, by simpa using length_bootName hi⟩
    rw [Function.iterate_one, bootTurn_open writes starts hi h, if_pos hmax]
  · intro i s rest h hmax ih h1 hi writes starts
    have hlt := h.2.1
    obtain ⟨n, ws, hrun, hws⟩ := ih (by omega) (by omega) (writes ++ [(bootName i).length + 1])
      (starts ++ [(i, (cpuStart T s i (t i)).1)])
    refine ⟨n + 1, ((bootName i).length + 1) :: ws, ?_, ?_⟩
    · rw [Function.iterate_succ_apply, bootTurn_open writes starts hi h, if_neg hmax, hrun]
      simp only [List.append_assoc, List.singleton_append]
    · intro w hw
      rcases List.mem_cons.mp hw with rfl | hw
      · exact length_bootName hi
      · exact hws w hw

theorem map_fst_starts (D : Dev) (T : Topology) (t : Nat → Attempt) (max : Int) (i : Nat) (s : Cpus) :
    (bootFrom D T t max i s).starts.map Prod.fst = List.range' i (bootFrom D T t max i s).starts.length := by
  refine bootFrom_induct (P := fun i _ run => run.starts.map Prod.fst = List.range' i run.starts.length) ?_ ?_ ?_ i s
  · exact fun _ _ _ => rfl
  · exact fun _ _ _ _ => rfl
  · intro i s rest _ _ ih
    rw [List.map_cons, ih, List.length_cons, List.range'_succ]

end

/-! ## The devices of `cpudevice_init` -/

/-- The device files there are while the kernel holds these resources. -/
def Dev.ofKernel (possible : Nat) (k : Kernel) : Dev := ⟨possible, fun m => decide (Resource.node .cpu m ∈ k.held)⟩

theorem mem_minors {possible m : Nat} : m ∈ minors possible ↔ m < possible - 1 := by
  simp [minors, MINOR_BASE]

/-- If `cpudevice_init` gets what it asks for, every processor but the first has a device. -/
theorem hasNode_cpudeviceInit (u : Unloaded) {ok : Resource → Bool} {possible : Nat}
    (hok : ∀ r ∈ cpuParts possible, ok r = true) (i : Nat) :
    (Dev.ofKernel possible (cpudeviceInit ok possible u.kernel).2).HasNode i ↔ 1 ≤ i ∧ i < possible := by
  have hnode : ∀ m < possible - 1, Resource.node .cpu m ∈ cpuParts possible := fun m hm => by
    simp [cpuParts, mem_minors, hm]
  have hup : 1 < possible → CpuUp possible ok := fun h =>
    ⟨h, hok _ (by simp [cpuParts]), hok _ (by simp [cpuParts]), hok _ (by simp [cpuParts])⟩
  constructor
  · intro h
    exact ⟨h.1, h.2.1⟩
  · rintro ⟨h1, hlt⟩
    have hmem := hnode (i - 1) (by omega)
    refine ⟨h1, hlt, decide_eq_true ?_⟩
    rw [mem_cpudeviceInit ok (u.fresh (by simp [cpuParts]))]
    exact .inr ⟨hup (by omega), hmem, hok _ hmem⟩

/-- The number of cores that `boot(max)` should start on a machine with `possible` processors. -/
def bootLimit (possible : Nat) (max : Int) : Nat := if max ≤ 0 then possible - 1 else min max.toNat (possible - 1)

theorem length_starts {D : Dev} (T : Topology) (t : Nat → Attempt) (max : Int) (s : Cpus) {possible : Nat}
    (hD : ∀ i, D.HasNode i ↔ 1 ≤ i ∧ i < possible) :
    (bootFrom D T t max 1 s).starts.length = bootLimit possible max := by
  obtain ⟨-, hstarts, hall⟩ := bootFrom_spec D T t max 1 s
  have hfst := map_fst_starts D T t max 1 s
  generalize (bootFrom D T t max 1 s).starts = starts at hstarts hall hfst
  have hmem : ∀ j, 1 ≤ j → (j ≤ starts.length ↔ j < possible ∧ (max ≤ 0 ∨ (j : Int) ≤ max)) := by
    intro j hj
    have hreach : Reached D max 1 j ↔ j < possible ∧ (max ≤ 0 ∨ (j : Int) ≤ max) := by
      rw [reached_one_iff hj]
      refine and_congr_left fun _ => ⟨fun h => ((hD j).mp (h j hj le_rfl)).2, fun h k h1 hk => (hD k).mpr ?_⟩
      omega
    have hrange : j ≤ starts.length ↔ j ∈ starts.map Prod.fst := by
      rw [hfst, List.mem_range'_1]
      omega
    rw [← hreach, hrange, List.mem_map]
    constructor
    · rintro ⟨r, hr, rfl⟩
      exact (hstarts r hr).1
    · exact hall j
  have hlen := hmem starts.length
  have hnext := hmem (starts.length + 1)
  unfold bootLimit
  split <;> omega

/-- **The cores that `boot` addresses.** On a machine with 1 to 8192 processors where `cpudevice_init` got what it asked
for, `boot(max)` returns; it has called `cpu_start` for the processors 1, 2, …, `r` in that order and returns `r`, all
processors but the first or the limit, and no `sprintf` has written more than the 20 bytes of the buffer. -/
theorem boot_addresses (possible : Nat) (hN : 1 ≤ possible ∧ possible ≤ 8192) (u : Unloaded) (ok : Resource → Bool)
    (hok : ∀ r ∈ cpuParts possible, ok r = true) (T : Topology) (t : Nat → Attempt) (s : Cpus) (max : BitVec 32) :
    let D := Dev.ofKernel possible (cpudeviceInit ok possible u.kernel).2
    let r := bootLimit possible max.toInt
    ∃ n, let st := (bootTurn D T t max)^[n] ⟨.turn 1, [], [], s⟩
      st.pc = .returned (BitVec.ofNat 32 r) ∧ st.starts.map Prod.fst = List.range' 1 r ∧
        0 ∉ st.starts.map Prod.fst ∧ ∀ w ∈ st.writes, w ≤ BUF_SIZE := by
  intro D r
  have hD : ∀ i, D.HasNode i ↔ 1 ≤ i ∧ i < possible := hasNode_cpudeviceInit u hok
  obtain ⟨n, ws, hrun, hws⟩ := turns_bootFrom D T t max s hN.2 le_rfl (by decide) [] []
  have hlen := length_starts T t max.toInt s hD
  have hret := (bootFrom_spec D T t max.toInt 1 s).1
  have hfst : (bootFrom D T t max.toInt 1 s).starts.map Prod.fst = List.range' 1 r := by
    rw [map_fst_starts, hlen]
  rw [hlen, show ((1 : Nat) : Int) - 1 = 0 from rfl, Int.zero_add] at hret
  rw [List.nil_append, List.nil_append] at hrun
  refine ⟨n, ?_⟩
  dsimp only
  rw [show (1 : BitVec 32) = BitVec.ofNat 32 1 from rfl, hrun]
  dsimp only
  refine ⟨?_, hfst, ?_, hws⟩
  · rw [hret, BitVec.ofInt_natCast]
  · intro h0
    rw [hfst, List.mem_range'_1] at h0
    omega

/-- Four processors and a limit of two. -/
theorem boot_addresses_two :
    let online : Nat → Bool := fun i => decide (i < 4)
    let D := Dev.ofKernel 4 (cpudeviceInit (fun _ => true) 4 ⟨∅, []⟩).2
    ∃ n, let st := (bootTurn D ⟨online, fun i => i⟩ (fun _ => Machine.delivered) 2)^[n] ⟨.turn 1, [], [], ⟨online, []⟩⟩
      st.pc = .returned 2 ∧ st.starts.map Prod.fst = [1, 2] ∧ 0 ∉ st.starts.map Prod.fst ∧
        ∀ w ∈ st.writes, w ≤ BUF_SIZE :=
  boot_addresses 4 (by decide) ⟨⟨∅, []⟩, by simp⟩ (fun _ => true) (by simp) _ _ _ 2

end Toshokan.Hakase
