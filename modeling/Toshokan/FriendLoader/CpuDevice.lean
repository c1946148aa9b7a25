import Mathlib.Data.List.Basic
import Toshokan.FriendLoader.CpuHotplug
import Toshokan.Lib.Sched

/-!
# `FriendLoader/cpudevice.c`: the device files of the cores

Opening `/dev/friend_cpuK` takes the core `K` from Linux and starts it, closing it gives the core back. The driver does
not note which file has started a core.

* `cpudeviceOpen`, `cpudeviceClose` : the operations; `Machine.step` : an open or a close by some process;
* `Isolated` : the cores that open files have started are offline and have got no further interrupt;
* `Exclusive` : a step that leaves the cores of other open files alone;
* `isolated_iff` : a run keeps the cores isolated iff its steps are exclusive; `started_core_disturbed` : runs that are not.
-/

namespace Toshokan.FriendLoader

def MINOR_BASE : Nat := 0

def cpuOf (minor : Nat) : Nat := minor - MINOR_BASE + 1

theorem cpuOf_inj {m m' : Nat} (h : cpuOf m = cpuOf m') : m = m' := by
  unfold cpuOf MINOR_BASE at h
  omega

def cpudeviceOpen (T : Topology) (s : Cpus) (minor : Nat) (t : Attempt) : Int × Cpus :=
  (0, (cpuStart T s (cpuOf minor) t).2)

def cpudeviceClose (s : Cpus) (minor : Nat) (up : Bool) : Int × Cpus := (0, (cpuReplug s (cpuOf minor) up).2)

/-! ## Opens and closes -/

/-- Processors whose APIC ids differ. -/
structure Machine extends Topology where
  apicid_inj : ∀ i j, present i = true → present j = true → apicid i = apicid j → i = j

/-- An open file. For the specification it has with it whether its `cpu_start` returned 0 and how much had been done to
the APIC by then; the driver keeps neither. -/
structure OpenFile where
  id : Nat
  minor : Nat
  started : Bool
  since : Nat
  deriving DecidableEq, Repr

structure DeviceState where
  cpus : Cpus
  files : List OpenFile
  next : Nat

inductive FileOp
  | openFile (minor : Nat) (t : Attempt)
  | closeFile (id : Nat) (up : Bool)

def DeviceState.file (st : DeviceState) (id : Nat) : Option OpenFile := st.files.find? (·.id == id)

namespace Machine

variable (M : Machine)

def openFile (st : DeviceState) (minor : Nat) (t : Attempt) : DeviceState :=
  let cpus := (cpudeviceOpen M.toTopology st.cpus minor t).2
  { cpus := cpus
    files := st.files ++
      [⟨st.next, minor, (cpuStart M.toTopology st.cpus (cpuOf minor) t).1 == 0, cpus.ops.length⟩]
    next := st.next + 1 }

def closeFile (st : DeviceState) (id : Nat) (up : Bool) : DeviceState :=
  match st.file id with
  | none => st
  | some f =>
      { st with cpus := (cpudeviceClose st.cpus f.minor up).2, files := st.files.filter (·.id != id) }

def step (st : DeviceState) : FileOp → DeviceState
  | .openFile minor t => M.openFile st minor t
  | .closeFile id up => closeFile st id up

def init (online : Nat → Bool) : DeviceState := ⟨⟨online, []⟩, [], 0⟩

/-- Every core that an open file has started is offline, and has got no interrupt since. -/
def Isolated (st : DeviceState) : Prop :=
  ∀ f ∈ st.files, f.started = true → st.cpus.online (cpuOf f.minor) = false ∧
    ∀ op ∈ st.cpus.ops.drop f.since, op.target ≠ some (M.apicid (cpuOf f.minor))

/-- A device is opened only while no open file has started its core, and if another open file has, then closing one does
not bring the core up. -/
def Exclusive (st : DeviceState) : FileOp → Prop
  | .openFile minor _ => ∀ f ∈ st.files, f.started = true → f.minor ≠ minor
  | .closeFile id up =>
      ∀ f, st.file id = some f → ∀ g ∈ st.files, g.started = true → g.minor = f.minor → g.id ≠ id → up = false

/-- The processors of started files can be started. -/
def Known (st : DeviceState) : Prop :=
  ∀ f ∈ st.files, f.started = true →
    M.present (cpuOf f.minor) = true ∧ M.apicid (cpuOf f.minor) ≠ 0 ∧ f.since ≤ st.cpus.ops.length

variable {M}

/-! ## Single steps -/

theorem mem_openFile {st : DeviceState} {minor : Nat} {t : Attempt} {f : OpenFile}
    (hf : f ∈ (M.openFile st minor t).files) :
    f ∈ st.files ∨ f = ⟨st.next, minor, (cpuStart M.toTopology st.cpus (cpuOf minor) t).1 == 0,
      (cpuStart M.toTopology st.cpus (cpuOf minor) t).2.ops.length⟩ := by
  rcases List.mem_append.mp hf with hf | hf
  · exact .inl hf
  · exact .inr (List.mem_singleton.mp hf)

theorem known_openFile {st : DeviceState} (h : M.Known st) (minor : Nat) (t : Attempt) :
    M.Known (M.openFile st minor t) := by
  obtain ⟨-, ops, hops, -⟩ := cpuStart_frame (T := M.toTopology) (s := st.cpus) (i := cpuOf minor) (t := t)
  intro f hf hs
  rcases mem_openFile hf with hf | rfl
  · obtain ⟨hp, ha, hle⟩ := h f hf hs
    refine ⟨hp, ha, ?_⟩
    change f.since ≤ (cpuStart M.toTopology st.cpus (cpuOf minor) t).2.ops.length
    rw [hops, List.length_append]
    omega
  · obtain ⟨hp, -, -, ha, -⟩ := cpuStart_eq_zero_iff.mp (beq_iff_eq.mp hs)
    exact ⟨hp, ha, le_rfl⟩

theorem isolated_openFile {st : DeviceState} (hk : M.Known st) (h : M.Isolated st) {minor : Nat} {t : Attempt}
    (he : Exclusive st (.openFile minor t)) : M.Isolated (M.openFile st minor t) := by
  obtain ⟨honline, ops, hops, htarget⟩ :=
    cpuStart_frame (T := M.toTopology) (s := st.cpus) (i := cpuOf minor) (t := t)
  intro f hf hs
  change (cpuStart M.toTopology st.cpus (cpuOf minor) t).2.online (cpuOf f.minor) = false ∧
    ∀ op ∈ (cpuStart M.toTopology st.cpus (cpuOf minor) t).2.ops.drop f.since, _
  rcases mem_openFile hf with hf | rfl
  · obtain ⟨hoff, hquiet⟩ := h f hf hs
    obtain ⟨hp, -, hle⟩ := hk f hf hs
    have hne : cpuOf f.minor ≠ cpuOf minor := fun heq => he f hf hs (cpuOf_inj heq)
    refine ⟨by rw [honline _ hne]; exact hoff, fun op hop htgt => ?_⟩
    rw [hops, List.drop_append_of_le_length hle] at hop
    rcases List.mem_append.mp hop with hop | hop
    · exact hquiet op hop htgt
    · -- an interrupt of this open goes to another processor
      obtain ⟨hp', hid⟩ := htarget op hop _ htgt
      exact hne (M.apicid_inj _ _ hp hp' hid)
  · obtain ⟨hp, hd, h0, ha, -⟩ := cpuStart_eq_zero_iff.mp (beq_iff_eq.mp hs)
    constructor
    · rw [cpuStart_woken hp hd h0 ha]
      exact Function.update_self ..
    · rw [List.drop_length]
      simp

theorem mem_closeFile {st : DeviceState} {id : Nat} {up : Bool} {f g : OpenFile} (hf : st.file id = some f)
    (hg : g ∈ (closeFile st id up).files) : g ∈ st.files ∧ g.id ≠ id := by
  unfold closeFile at hg
  rw [hf] at hg
  obtain ⟨hg, hne⟩ := List.mem_filter.mp hg
  exact ⟨hg, by simpa using hne⟩

theorem cpus_closeFile {st : DeviceState} {id : Nat} {up : Bool} {f : OpenFile} (hf : st.file id = some f) :
    (closeFile st id up).cpus = if up = true then st.cpus.set (cpuOf f.minor) true else st.cpus := by
  unfold closeFile
  rw [hf]
  dsimp only
  unfold cpudeviceClose cpuReplug
  split <;> rfl

theorem ops_closeFile (st : DeviceState) (id : Nat) (up : Bool) : (closeFile st id up).cpus.ops = st.cpus.ops := by
  cases hf : st.file id with
  | none =>
      unfold closeFile
      rw [hf]
  | some f =>
      rw [cpus_closeFile hf]
      split <;> rfl

theorem known_closeFile {st : DeviceState} (h : M.Known st) (id : Nat) (up : Bool) : M.Known (closeFile st id up) := by
  intro g hg hs
  rw [ops_closeFile]
  cases hf : st.file id with
  | none =>
      unfold closeFile at hg
      rw [hf] at hg
      exact h g hg hs
  | some f => exact h g (mem_closeFile hf hg).1 hs

theorem isolated_closeFile {st : DeviceState} (h : M.Isolated st) {id : Nat} {up : Bool}
    (he : Exclusive st (.closeFile id up)) : M.Isolated (closeFile st id up) := by
  intro g hg hs
  rw [ops_closeFile]
  cases hf : st.file id with
  | none =>
      unfold closeFile at hg ⊢
      rw [hf] at hg ⊢
      exact h g hg hs
  | some f =>
      obtain ⟨hg, hid⟩ := mem_closeFile hf hg
      obtain ⟨hoff, hquiet⟩ := h g hg hs
      refine ⟨?_, hquiet⟩
      rw [cpus_closeFile hf]
      split
      · rename_i hup
        by_cases hm : g.minor = f.minor
        · rw [he f hf g hg hs hm hid] at hup
          cases hup
        · have hne : cpuOf g.minor ≠ cpuOf f.minor := fun heq => hm (cpuOf_inj heq)
          exact (Function.update_of_ne hne _ _).trans hoff
      · exact hoff

/-! ## Steps that are not exclusive -/

/-- Opening the device of a started core again restarts the core. -/
theorem exclusive_openFile {st : DeviceState} (hk : M.Known st) (h : M.Isolated st) {minor : Nat} {t : Attempt}
    (h' : M.Isolated (M.openFile st minor t)) : Exclusive st (.openFile minor t) := by
  rintro f hf hs rfl
  obtain ⟨hoff, -⟩ := h f hf hs
  obtain ⟨hp, ha, hle⟩ := hk f hf hs
  have hf' : f ∈ (M.openFile st f.minor t).files := List.mem_append_left _ hf
  have hops : (M.openFile st f.minor t).cpus.ops =
      st.cpus.ops ++ (wakeupSecondaryCpuViaInit t.apic (M.apicid (cpuOf f.minor)) TRAMPOLINE_ADDR).2 := by
    change (cpuStart M.toTopology st.cpus (cpuOf f.minor) t).2.ops = _
    rw [cpuStart_woken hp (by rw [hoff]; simp) (Nat.succ_ne_zero _) ha]
  refine (h' f hf' hs).2 _ ?_ (show (ApicOp.icrWrite .initAssert _).target = _ from rfl)
  rw [hops, List.drop_append_of_le_length hle]
  exact List.mem_append_right _ (wakeup_ops _ _ _).2

/-- Closing another file of it brings the core up. -/
theorem exclusive_closeFile {st : DeviceState} {id : Nat} {up : Bool} (h' : M.Isolated (closeFile st id up)) :
    Exclusive st (.closeFile id up) := by
  intro f hf g hg hs hm hid
  have hg' : g ∈ (closeFile st id up).files := by
    unfold closeFile
    rw [hf]
    exact List.mem_filter.mpr ⟨hg, by simpa using hid⟩
  have hoff := (h' g hg' hs).1
  rw [cpus_closeFile hf, hm] at hoff
  split at hoff
  · rw [show (st.cpus.set (cpuOf f.minor) true).online (cpuOf f.minor) = true from Function.update_self ..] at hoff
    cases hoff
  · simpa using ‹¬up = true›

/-! ## Runs -/

theorem known_run (online : Nat → Bool) (ts : List FileOp) : M.Known (Lib.run M.step (init online) ts) := by
  apply Lib.run_induct M.step fun _ hf => absurd hf List.not_mem_nil
  intro st op h
  cases op with
  | openFile minor t => exact known_openFile h minor t
  | closeFile id up => exact known_closeFile h id up

theorem isolated_init (online : Nat → Bool) : M.Isolated (init online) :=
  fun _ hf => absurd hf List.not_mem_nil

/-- **When started cores stay isolated.** In every state of a run the cores that open files have started are offline and
have got no interrupt since, iff no step of it opens the device of such a core again, or closes another file of such a
device with `cpu_up` succeeding. -/
theorem isolated_iff (M : Machine) (online : Nat → Bool) (ts : List FileOp) :
    Lib.Always M.step M.Isolated (init online) ts ↔ Lib.Meets M.step Exclusive (init online) ts := by
  constructor
  · intro h us op hu
    have hnow : M.Isolated (Lib.run M.step (init online) us) := h us ((List.prefix_append us [op]).trans hu)
    have hnext := h.after M.step hu
    cases op with
    | openFile minor t => exact exclusive_openFile (known_run online us) hnow hnext
    | closeFile id up => exact exclusive_closeFile hnext
  · intro h us hu
    have hinv := Lib.always_of_meets M.step (P := fun st => M.Known st ∧ M.Isolated st)
      ⟨known_run online [], isolated_init online⟩
      (fun st op hst he => by
        cases op with
        | openFile minor t => exact ⟨known_openFile hst.1 minor t, isolated_openFile hst.1 hst.2 he⟩
        | closeFile id up => exact ⟨known_closeFile hst.1 id up, isolated_closeFile hst.2 he⟩) h us hu
    exact hinv.2

/-- Two processors that are both online, an APIC that delivers everything. -/
def twoCpus : Machine := ⟨⟨fun i => decide (i < 2), fun i => i⟩, fun _ _ _ _ h => Int.ofNat.inj h⟩

def delivered : Attempt := ⟨true, ⟨true, 4, fun _ => 0, fun _ => 0⟩⟩

/-- The device of core 1 is opened twice: the second open sends INIT to the running core, and when the second file is
closed the core goes back to Linux while the first is still open. -/
theorem started_core_disturbed :
    let online : Nat → Bool := fun i => decide (i < 2)
    let st := Lib.run twoCpus.step (init online) [.openFile 0 delivered, .openFile 0 delivered]
    let st' := Lib.run twoCpus.step (init online) [.openFile 0 delivered, .openFile 0 delivered, .closeFile 1 true]
    (∃ f ∈ st.files, f.id = 0 ∧ f.started = true ∧ .icrWrite .initAssert 1 ∈ st.cpus.ops.drop f.since) ∧
    (∃ f ∈ st'.files, f.id = 0 ∧ f.started = true ∧ st'.cpus.online 1 = true) ∧
    ¬ twoCpus.Isolated st ∧ ¬ twoCpus.Isolated st' := by
  intro online st st'
  have hagain : ∃ f ∈ st.files, f.id = 0 ∧ f.started = true ∧ f.minor = 0 ∧
      .icrWrite .initAssert 1 ∈ st.cpus.ops.drop f.since := by decide
  have hback : ∃ f ∈ st'.files, f.id = 0 ∧ f.started = true ∧ f.minor = 0 ∧ st'.cpus.online 1 = true := by decide
  obtain ⟨f, hf, hid, hs, hm, hop⟩ := hagain
  obtain ⟨f', hf', hid', hs', hm', hup⟩ := hback
  refine ⟨⟨f, hf, hid, hs, hop⟩, ⟨f', hf', hid', hs', hup⟩, fun h => ?_, fun h => ?_⟩
  · refine (h f hf hs).2 _ hop ?_
    rw [hm]
    rfl
  · have hoff := (h f' hf' hs').1
    rw [hm'] at hoff
    exact absurd (hoff.symm.trans hup) (by decide)

end Machine
end Toshokan.FriendLoader
