import Toshokan.FriendLoader.CpuDevice
import Toshokan.Lib.Ledger

/-!
# `FriendLoader/main.c`: loading and unloading the module

`friend_loader_init` sets up the interfaces of `call_interface.c`, `cpudevice.c` and `version.c` one after another, out
of resources of the kernel, each of which it may fail to get.

* `Resource`, `Kernel` : the resources and those held; the kernel's calls, which succeed as `ok : Resource → Bool` says;
* `genericMemdeviceInit`, `cpudeviceInit`, `versionInterfaceInit`, `friendLoaderInit` and the exits : as in the source;
* `MemUp`, `CpuUp`, `VersionUp` : the outcomes with which an interface is set up, and `memParts`, `cpuParts`,
  `versionParts` its resources; `friendLoaderInit_ret`, `mem_friendLoaderInit` : the value returned, and what is held then.
-/

namespace Toshokan.FriendLoader

def EIO : Int := 5
def ENXIO : Int := 6

/-- The interfaces made of a character device. -/
inductive Interface
  | mem
  | bootmem
  | cpu
  deriving DecidableEq, Repr

/-- A region of device numbers, a `cdev`, a class and device nodes for each, the `kobject` of the version interface with
its sysfs group, and what others hold. -/
inductive Resource
  | region (d : Interface)
  | cdev (d : Interface)
  | cls (d : Interface)
  | node (d : Interface) (minor : Nat)
  | kobj
  | group
  | other (n : Nat)
  deriving DecidableEq, Repr

abbrev Kernel := Lib.Ledger Resource

/-- What a call that makes an object may return. -/
inductive Ptr
  | null
  | err
  | valid
  deriving DecidableEq, Repr

def Ptr.isErr (p : Ptr) : Bool := p == .err

/-! ## The kernel's calls

No resource is asked for twice, so that `ok` is any sequence of outcomes. -/

section
variable (ok : Resource → Bool)

/-- A call that returns 0 on success. -/
def acquireInt (k : Kernel) (r : Resource) : Int × Kernel := (if ok r = true then 0 else -1, k.acquire r (ok r))

/-- A call that returns an object. -/
def acquirePtr (fail : Ptr) (k : Kernel) (r : Resource) : Ptr × Kernel :=
  (if ok r = true then .valid else fail, k.acquire r (ok r))

def allocChrdevRegion (k : Kernel) (d : Interface) : Int × Kernel := acquireInt ok k (.region d)
def cdevAdd (k : Kernel) (d : Interface) : Int × Kernel := acquireInt ok k (.cdev d)
def sysfsCreateGroup (k : Kernel) : Int × Kernel := acquireInt ok k .group
def classCreate (k : Kernel) (d : Interface) : Ptr × Kernel := acquirePtr ok .err k (.cls d)
def deviceCreate (k : Kernel) (d : Interface) (minor : Nat) : Ptr × Kernel := acquirePtr ok .err k (.node d minor)
def kobjectCreateAndAdd (k : Kernel) : Ptr × Kernel := acquirePtr ok .null k .kobj

end

def unregisterChrdevRegion (k : Kernel) (d : Interface) : Kernel := k.release (.region d)
def cdevDel (k : Kernel) (d : Interface) : Kernel := k.release (.cdev d)
def classDestroy (k : Kernel) (d : Interface) : Kernel := k.release (.cls d)
def deviceDestroy (k : Kernel) (d : Interface) (minor : Nat) : Kernel := k.release (.node d minor)

/-- The last `kobject_put` removes the directory with all that is in it. -/
def kobjectPut (k : Kernel) : Kernel := (k.release .group).release .kobj

/-! ## `call_interface.c` -/

section
variable (ok : Resource → Bool)

def genericMemdeviceInit (k : Kernel) (d : Interface) : Int × Kernel :=
  let (r, k) := allocChrdevRegion ok k d
  if r ≠ 0 then (- ENXIO, k)
  else
    let (c, k) := classCreate ok k d
    if c.isErr = true then (- ENXIO, unregisterChrdevRegion k d)
    else
      let (p, k) := deviceCreate ok k d 0
      if p = .null then (- ENXIO, unregisterChrdevRegion (classDestroy k d) d)
      else
        let (r, k) := cdevAdd ok k d
        if r ≠ 0 then (- ENXIO, unregisterChrdevRegion (classDestroy (deviceDestroy k d 0) d) d)
        else (0, k)

/-- The values returned by `generic_memdevice_init` are not looked at. -/
def memdeviceInit (k : Kernel) : Int × Kernel :=
  let (_, k) := genericMemdeviceInit ok k .mem
  let (_, k) := genericMemdeviceInit ok k .bootmem
  (0, k)

/-- One half of `memdevice_exit`. -/
def genericMemdeviceExit (k : Kernel) (d : Interface) : Kernel :=
  unregisterChrdevRegion (classDestroy (deviceDestroy (cdevDel k d) d 0) d) d

def memdeviceExit (k : Kernel) : Kernel := genericMemdeviceExit (genericMemdeviceExit k .mem) .bootmem

/-! ## `cpudevice.c` -/

/-- The minor numbers from `MINOR_BASE` on, one for each processor but the first. -/
def minors (possible : Nat) : List Nat := (List.range (possible - 1)).map (MINOR_BASE + ·)

/-- `cpudevice_init` on a machine with `possible` processors, that which runs it among them. -/
def cpudeviceInit (possible : Nat) (k : Kernel) : Int × Kernel :=
  if possible - 1 = 0 then (- EIO, k)
  else
    let (r, k) := allocChrdevRegion ok k .cpu
    if r ≠ 0 then (- ENXIO, k)
    else
      let (r, k) := cdevAdd ok k .cpu
      if r ≠ 0 then (- ENXIO, unregisterChrdevRegion k .cpu)
      else
        let (c, k) := classCreate ok k .cpu
        if c.isErr = true then (- ENXIO, unregisterChrdevRegion (cdevDel k .cpu) .cpu)
        else (0, (minors possible).foldl (fun k minor => (deviceCreate ok k .cpu minor).2) k)

def cpudeviceExit (possible : Nat) (k : Kernel) : Kernel :=
  let k := (minors possible).foldl (fun k minor => deviceDestroy k .cpu minor) k
  unregisterChrdevRegion (cdevDel (classDestroy k .cpu) .cpu) .cpu

/-! ## `version.c` -/

def versionInterfaceInit (k : Kernel) : Int × Kernel :=
  let (p, k) := kobjectCreateAndAdd ok k
  if p = .null then (-1, k)
  else
    let (r, k) := sysfsCreateGroup ok k
    if r ≠ 0 then (-1, kobjectPut k) else (0, k)

def versionInterfaceExit (k : Kernel) : Kernel := kobjectPut k

/-! ## `main.c` -/

def friendLoaderInit (possible : Nat) (k : Kernel) : Int × Kernel :=
  let (r, k) := memdeviceInit ok k
  if r < 0 then (- EIO, k)
  else
    let (n, k) := cpudeviceInit ok possible k
    if n < 0 then (n, k)
    else
      let (r, k) := versionInterfaceInit ok k
      if r < 0 then (- EIO, k) else (0, k)

def friendLoaderExit (possible : Nat) (k : Kernel) : Kernel :=
  memdeviceExit (cpudeviceExit possible (versionInterfaceExit k))

end

/-! ## What is held afterwards

An initialiser either keeps all that it got or, on the paths that roll back, nothing. -/

def memParts (d : Interface) : List Resource := [.region d, .cls d, .node d 0, .cdev d]

def cpuParts (possible : Nat) : List Resource :=
  [.region .cpu, .cdev .cpu, .cls .cpu] ++ (minors possible).map (.node .cpu)

def versionParts : List Resource := [.kobj, .group]

/-- A failed `device_create` is not noticed, its error not being `NULL`. -/
def MemUp (ok : Resource → Bool) (d : Interface) : Prop :=
  ok (.region d) = true ∧ ok (.cls d) = true ∧ ok (.cdev d) = true

def CpuUp (possible : Nat) (ok : Resource → Bool) : Prop :=
  1 < possible ∧ ok (.region .cpu) = true ∧ ok (.cdev .cpu) = true ∧ ok (.cls .cpu) = true

def VersionUp (ok : Resource → Bool) : Prop := ok .kobj = true ∧ ok .group = true

def Fresh (k : Kernel) (rs : List Resource) : Prop := ∀ r ∈ rs, r ∉ k.held

section
variable (ok : Resource → Bool) {k : Kernel}

theorem mem_genericMemdeviceInit {d : Interface} (h : Fresh k (memParts d)) (x : Resource) :
    x ∈ (genericMemdeviceInit ok k d).2.held ↔ x ∈ k.held ∨ MemUp ok d ∧ x ∈ memParts d ∧ ok x = true := by
  have hx : x ∈ k.held → x ∉ memParts d := fun hk hp => h x hp hk
  unfold genericMemdeviceInit allocChrdevRegion classCreate deviceCreate cdevAdd acquireInt acquirePtr MemUp
  simp only [memParts, List.mem_cons, List.not_mem_nil, or_false, not_or] at hx ⊢
  by_cases hr : ok (.region d) = true
  · by_cases hc : ok (.cls d) = true
    · -- `device_create` returns an error or an object, and the path goes on with either
      have hn : (if ok (.node d 0) = true then Ptr.valid else .err) ≠ .null := by
        split <;> decide
      by_cases ha : ok (.cdev d) = true
      · simp only [hr, hc, hn, ha, Ptr.isErr, ↓reduceIte, ne_eq, not_true_eq_false, beq_iff_eq, reduceCtorEq,
          Lib.Ledger.mem_acquire]
        grind
      · simp only [hr, hc, hn, ha, Ptr.isErr, ↓reduceIte, ne_eq, not_true_eq_false, beq_iff_eq, reduceCtorEq,
          Bool.false_eq_true, Int.reduceNeg, neg_eq_zero, one_ne_zero, not_false_eq_true, deviceDestroy, classDestroy,
          unregisterChrdevRegion, Lib.Ledger.mem_acquire, Lib.Ledger.mem_release]
        grind
    · simp only [hr, hc, Ptr.isErr, ↓reduceIte, ne_eq, not_true_eq_false, BEq.rfl, Bool.false_eq_true,
        unregisterChrdevRegion, Lib.Ledger.mem_acquire, Lib.Ledger.mem_release]
      grind
  · simp [hr]

theorem cpudeviceInit_ret (possible : Nat) (k : Kernel) :
    (CpuUp possible ok → (cpudeviceInit ok possible k).1 = 0) ∧
      (¬ CpuUp possible ok → (cpudeviceInit ok possible k).1 < 0) := by
  unfold cpudeviceInit allocChrdevRegion cdevAdd classCreate acquireInt acquirePtr CpuUp EIO ENXIO
  by_cases hp : possible - 1 = 0
  · have hlt : ¬ 1 < possible := by omega
    simp [hp, hlt]
  · have hlt : 1 < possible := by omega
    by_cases hr : ok (.region .cpu) = true <;> by_cases ha : ok (.cdev .cpu) = true <;>
      by_cases hc : ok (.cls .cpu) = true <;> simp [hp, hlt, hr, ha, hc, Ptr.isErr]

theorem foldl_deviceCreate (d : Interface) (ms : List Nat) (k : Kernel) :
    ms.foldl (fun k minor => (deviceCreate ok k d minor).2) k = k.acquireAll ok (ms.map (.node d)) := by
  unfold Lib.Ledger.acquireAll deviceCreate acquirePtr
  rw [List.foldl_map]

theorem mem_cpudeviceInit {possible : Nat} (h : Fresh k (cpuParts possible)) (x : Resource) :
    x ∈ (cpudeviceInit ok possible k).2.held ↔
      x ∈ k.held ∨ CpuUp possible ok ∧ x ∈ cpuParts possible ∧ ok x = true := by
  have hx : x ∈ k.held → x ∉ cpuParts possible := fun hk hp => h x hp hk
  unfold cpudeviceInit allocChrdevRegion cdevAdd classCreate acquireInt acquirePtr CpuUp
  simp only [cpuParts, List.cons_append, List.nil_append, List.mem_cons, not_or] at hx ⊢
  by_cases hp : possible - 1 = 0
  · have hlt : ¬ 1 < possible := by omega
    simp [hp, hlt]
  · have hlt : 1 < possible := by omega
    by_cases hr : ok (.region .cpu) = true
    · by_cases ha : ok (.cdev .cpu) = true
      · by_cases hc : ok (.cls .cpu) = true
        · simp only [hp, hlt, hr, ha, hc, Ptr.isErr, foldl_deviceCreate, ↓reduceIte, ne_eq, not_true_eq_false,
            beq_iff_eq, reduceCtorEq, Lib.Ledger.mem_acquire, Lib.Ledger.mem_acquireAll]
          grind
        · simp only [hp, hr, ha, hc, Ptr.isErr, ↓reduceIte, ne_eq, not_true_eq_false, BEq.rfl, Bool.false_eq_true,
            cdevDel, unregisterChrdevRegion, Lib.Ledger.mem_acquire, Lib.Ledger.mem_release]
          grind
      · simp only [hp, hr, ha, ↓reduceIte, ne_eq, not_true_eq_false, Bool.false_eq_true, Int.reduceNeg, neg_eq_zero,
          one_ne_zero, not_false_eq_true, unregisterChrdevRegion, Lib.Ledger.mem_acquire, Lib.Ledger.mem_release]
        grind
    · simp [hp, hr]

theorem versionInterfaceInit_ret (k : Kernel) :
    (VersionUp ok → (versionInterfaceInit ok k).1 = 0) ∧ (¬ VersionUp ok → (versionInterfaceInit ok k).1 < 0) := by
  unfold versionInterfaceInit kobjectCreateAndAdd sysfsCreateGroup acquireInt acquirePtr VersionUp
  by_cases hk : ok .kobj = true <;> by_cases hg : ok .group = true <;> simp [hk, hg]

theorem mem_versionInterfaceInit (h : Fresh k versionParts) (x : Resource) :
    x ∈ (versionInterfaceInit ok k).2.held ↔ x ∈ k.held ∨ VersionUp ok ∧ x ∈ versionParts := by
  have hx : x ∈ k.held → x ∉ versionParts := fun hk hp => h x hp hk
  unfold versionInterfaceInit kobjectCreateAndAdd sysfsCreateGroup acquireInt acquirePtr VersionUp
  simp only [versionParts, List.mem_cons, List.not_mem_nil, or_false, not_or] at hx ⊢
  by_cases hk : ok .kobj = true
  · by_cases hg : ok .group = true
    · simp [hk, hg, or_assoc]
    · simp only [hk, hg, ↓reduceIte, reduceCtorEq, Bool.false_eq_true, Int.reduceNeg, ne_eq, neg_eq_zero, one_ne_zero,
        not_false_eq_true, kobjectPut, Lib.Ledger.mem_acquire, Lib.Ledger.mem_release]
      grind
  · simp [hk]

/-- Only the last two initialisers can stop the load, and neither undoes what came before it. -/
theorem friendLoaderInit_eq (possible : Nat) (k : Kernel) :
    friendLoaderInit ok possible k =
      let c := cpudeviceInit ok possible (memdeviceInit ok k).2
      let v := versionInterfaceInit ok c.2
      if c.1 < 0 then c else if v.1 < 0 then (- EIO, v.2) else (0, v.2) := rfl

theorem friendLoaderInit_ret (possible : Nat) (k : Kernel) :
    (CpuUp possible ok ∧ VersionUp ok → (friendLoaderInit ok possible k).1 = 0) ∧
      (¬ (CpuUp possible ok ∧ VersionUp ok) → (friendLoaderInit ok possible k).1 < 0) := by
  have hcpu := cpudeviceInit_ret ok possible (memdeviceInit ok k).2
  have hver := versionInterfaceInit_ret ok (cpudeviceInit ok possible (memdeviceInit ok k).2).2
  rw [friendLoaderInit_eq]
  by_cases hc : CpuUp possible ok
  · have hn := hcpu.1 hc
    by_cases hv : VersionUp ok
    · simp [hn, hver.1 hv, hc, hv]
    · simp [hn, hver.2 hv, hc, hv, EIO]
  · simp [hcpu.2 hc, hc]

theorem Fresh.extend {k' : Kernel} {rs : List Resource} (ps : List Resource) (h : Fresh k rs)
    (hd : rs.Disjoint ps) (hk : ∀ x ∈ k'.held, x ∈ k.held ∨ x ∈ ps) : Fresh k' rs := by
  intro r hr hheld
  rcases hk r hheld with hold | hnew
  · exact h r hr hold
  · exact hd hr hnew

end

/-! ## The module as a whole -/

structure Unloaded where
  kernel : Kernel
  foreign : ∀ r ∈ kernel.held, ∃ n, r = .other n

/-- A resource that `friend_loader_init` has got and not rolled back. -/
def Kept (possible : Nat) (ok : Resource → Bool) (x : Resource) : Prop :=
  MemUp ok .mem ∧ x ∈ memParts .mem ∧ ok x = true ∨ MemUp ok .bootmem ∧ x ∈ memParts .bootmem ∧ ok x = true ∨
    CpuUp possible ok ∧ x ∈ cpuParts possible ∧ ok x = true ∨ (CpuUp possible ok ∧ VersionUp ok) ∧ x ∈ versionParts

namespace Unloaded

variable (u : Unloaded) (ok : Resource → Bool) (possible : Nat)

theorem fresh {rs : List Resource} (h : ∀ n, .other n ∉ rs) : Fresh u.kernel rs := by
  intro r hr hheld
  obtain ⟨n, rfl⟩ := u.foreign r hheld
  exact h n hr

theorem mem_memdeviceInit (x : Resource) :
    x ∈ (memdeviceInit ok u.kernel).2.held ↔
      x ∈ u.kernel.held ∨ MemUp ok .mem ∧ x ∈ memParts .mem ∧ ok x = true ∨
        MemUp ok .bootmem ∧ x ∈ memParts .bootmem ∧ ok x = true := by
  have hfree (d : Interface) : Fresh u.kernel (memParts d) := u.fresh (by simp [memParts])
  have hmem := mem_genericMemdeviceInit ok (hfree .mem)
  have hfresh : Fresh (genericMemdeviceInit ok u.kernel .mem).2 (memParts .bootmem) := by
    apply Fresh.extend (memParts .mem) (hfree .bootmem) (by simp [memParts])
    intro x hx
    exact ((hmem x).mp hx).imp_right (·.2.1)
  unfold memdeviceInit
  rw [mem_genericMemdeviceInit ok hfresh, hmem, or_assoc]

theorem mem_cpudeviceInit_memdeviceInit (x : Resource) :
    x ∈ (cpudeviceInit ok possible (memdeviceInit ok u.kernel).2).2.held ↔
      x ∈ (memdeviceInit ok u.kernel).2.held ∨ CpuUp possible ok ∧ x ∈ cpuParts possible ∧ ok x = true := by
  apply mem_cpudeviceInit
  apply Fresh.extend (memParts .mem ++ memParts .bootmem) (u.fresh (by simp [cpuParts]))
  · simp [cpuParts, memParts, List.disjoint_left]
  · intro x hx
    rw [mem_memdeviceInit] at hx
    rw [List.mem_append]
    tauto

theorem mem_friendLoaderInit (x : Resource) :
    x ∈ (friendLoaderInit ok possible u.kernel).2.held ↔ x ∈ u.kernel.held ∨ Kept possible ok x := by
  have hcpu := cpudeviceInit_ret ok possible (memdeviceInit ok u.kernel).2
  have hheld := u.mem_cpudeviceInit_memdeviceInit ok possible
  rw [friendLoaderInit_eq]
  by_cases hc : CpuUp possible ok
  · have hfresh : Fresh (cpudeviceInit ok possible (memdeviceInit ok u.kernel).2).2 versionParts := by
      apply Fresh.extend (memParts .mem ++ memParts .bootmem ++ cpuParts possible) (u.fresh (by simp [versionParts]))
      · simp [cpuParts, memParts, versionParts, List.disjoint_left]
      · intro x hx
        rw [hheld, mem_memdeviceInit] at hx
        rw [List.mem_append, List.mem_append]
        tauto
    have hver := mem_versionInterfaceInit ok hfresh x
    simp only [hcpu.1 hc, lt_irrefl, if_false]
    rw [apply_ite Prod.snd, ite_self, hver, hheld, mem_memdeviceInit]
    simp only [Kept, hc, true_and, or_assoc]
  · simp only [hcpu.2 hc, if_true]
    rw [hheld, mem_memdeviceInit]
    simp only [Kept, hc, false_and, or_false]

end Unloaded

end Toshokan.FriendLoader
