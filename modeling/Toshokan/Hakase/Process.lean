import Toshokan.Lib.Bytes
import Toshokan.FriendLoader.CallInterface

/-!
# The address space of hakase

* `AddressMap`, `Process` : physical memory, and where hakase's addresses are in it;
* `mmap`, `unmap` : the system calls; `store8`, `storeBytes`, `store64` : stores, which fault outside the mappings;
* `Linear` : addresses that follow each other in physical memory too; `storeBytes_eq`, `store64_eq` : stores there;
* `mmapFriendMem` : `mmap_friend_mem` of `hakase/hakase.cc`; `seesFriend_of_mmapFriendMem` : after it hakase has friend
  memory at its physical addresses.
-/

namespace Toshokan.Hakase
open Lib (Bytes Range)
open FriendLoader

abbrev AddressMap := BitVec 64 → Option (BitVec 64)

structure Process where
  phys : Bytes
  map : AddressMap

namespace Process

/-- After `remap_pfn_range`: page `i` of the range is frame `pfn + i`. -/
def remap (p : Process) (r : Remap) : Process :=
  { p with map := fun a =>
      if (Range.mk r.addr r.size).covers a = true then some (r.pfn <<< PAGE_SHIFT + (a - r.addr)) else p.map a }

def unmap (p : Process) (r : Range) : Process :=
  { p with map := fun a => if r.covers a = true then none else p.map a }

/-- `mmap` of a device at `base` from offset 0, and whether it succeeds. What was mapped there is unmapped first. -/
def mmap (p : Process) (driver : Vma → Bool → MmapResult) (base size : BitVec 64) (ok : Bool) : Bool × Process :=
  let r := driver ⟨base, base + size, 0, false⟩ ok
  let p := p.unmap ⟨base, size⟩
  if r.ret = 0 then (true, r.call.elim p p.remap) else (false, p)

/-- A store; without a mapping it faults. -/
def store8 (p : Process) (a : BitVec 64) (b : BitVec 8) : Option Process :=
  (p.map a).map fun pa => { p with phys := Function.update p.phys pa b }

/-- `memcpy` and `memset`: the bytes `src 0` to `src (n - 1)` from `dst` on. -/
def storeBytes (p : Process) (dst : BitVec 64) (src : BitVec 64 → BitVec 8) : Nat → Option Process
  | 0 => some p
  | n + 1 => (p.storeBytes dst src n).bind fun p => p.store8 (dst + BitVec.ofNat 64 n) (src (BitVec.ofNat 64 n))

def store64 (p : Process) (a v : BitVec 64) : Option Process := p.storeBytes a (Bytes.byte v) 8

end Process

/-! ## Stores through a linear mapping -/

namespace AddressMap

/-- The `n` addresses from `a` on are mapped to the `n` physical addresses from `pa` on. -/
def Linear (map : AddressMap) (a pa : BitVec 64) (n : Nat) : Prop :=
  ∀ k < n, map (a + BitVec.ofNat 64 k) = some (pa + BitVec.ofNat 64 k)

variable {map : AddressMap} {a pa : BitVec 64} {n : Nat}

theorem Linear.sub (h : map.Linear a pa n) (d : Nat) {k : Nat} (hd : d + k ≤ n) :
    map.Linear (a + BitVec.ofNat 64 d) (pa + BitVec.ofNat 64 d) k := by
  intro j hj
  have hdj := h (d + j) (by omega)
  rwa [BitVec.ofNat_add, ← BitVec.add_assoc, ← BitVec.add_assoc] at hdj

theorem Linear.mono (h : map.Linear a pa n) {k : Nat} (hk : k ≤ n) : map.Linear a pa k :=
  fun j hj => h j (by omega)

/-- Hakase has friend memory at its physical addresses. -/
def SeesFriend (map : AddressMap) : Prop := ∀ a, InFriend a → map a = some a

theorem SeesFriend.linear (h : map.SeesFriend) (ha : InFriend a) (hn : a.toNat + n ≤ 0x140000000) :
    map.Linear a a n := by
  intro k hk
  rw [inFriend_iff] at ha
  refine h _ (inFriend_iff.mpr ?_)
  rw [BitVec.toNat_add, BitVec.toNat_ofNat]
  omega

end AddressMap

namespace Process

theorem storeBytes_eq (m : Bytes) {map : AddressMap} {dst pa : BitVec 64} {n : Nat} (src : BitVec 64 → BitVec 8)
    (h : map.Linear dst pa n) (hn : n < 2 ^ 64) :
    (Process.mk m map).storeBytes dst src n = some ⟨m.copy ⟨pa, BitVec.ofNat 64 n⟩ src, map⟩ := by
  induction n with
  | zero =>
      rw [storeBytes]
      exact congrArg (fun m => some (Process.mk m map)) (Bytes.copy_zero m pa src).symm
  | succ n ih =>
      rw [storeBytes, ih (h.mono (by omega)) (by omega), Option.bind_some, store8]
      dsimp only
      rw [h n (by omega), Option.map_some, Bytes.copy_succ _ _ _ hn]

theorem store64_eq (m : Bytes) {map : AddressMap} {a pa : BitVec 64} (v : BitVec 64) (h : map.Linear a pa 8) :
    (Process.mk m map).store64 a v = some ⟨m.write64 pa v, map⟩ := storeBytes_eq m _ h (by decide)

theorem linear_remap (p : Process) (r : Remap) :
    (p.remap r).map.Linear r.addr (r.pfn <<< PAGE_SHIFT) r.size.toNat := by
  intro k hk
  have hsub : r.addr + BitVec.ofNat 64 k - r.addr = BitVec.ofNat 64 k := by
    rw [BitVec.add_comm, BitVec.add_sub_cancel]
  have hc : (Range.mk r.addr r.size).covers (r.addr + BitVec.ofNat 64 k) = true := Range.covers_add hk
  rw [remap]
  dsimp only
  rw [if_pos hc, hsub]

/-! ## Friend memory -/

/-- `mmap_friend_mem`. `opened` and `remapped` tell whether `open` and `remap_pfn_range` succeed; `none` is a fault. -/
def mmapFriendMem (p : Process) (opened remapped : Bool) : Option (Int × Process) :=
  if opened = false then some (-1, p)
  else
    let (mapped, p) := p.mmap memdeviceMmap DEPLOY_PHYS_ADDR_START DEPLOY_PHYS_MEM_SIZE remapped
    if mapped = false then some (-1, p)
    else (p.storeBytes DEPLOY_PHYS_ADDR_START (fun _ => 0) (1024 * 4096)).map fun p => (0, p)

theorem mmap_memdevice (p : Process) (remapped : Bool) :
    p.mmap memdeviceMmap DEPLOY_PHYS_ADDR_START DEPLOY_PHYS_MEM_SIZE remapped =
      let q := p.unmap ⟨DEPLOY_PHYS_ADDR_START, DEPLOY_PHYS_MEM_SIZE⟩
      if remapped = true then
        (true, q.remap ⟨DEPLOY_PHYS_ADDR_START, DEPLOY_PHYS_ADDR_START >>> PAGE_SHIFT, DEPLOY_PHYS_MEM_SIZE⟩)
      else (false, q) := by
  cases remapped <;> rfl

theorem seesFriend_remap (p : Process) :
    (p.remap ⟨DEPLOY_PHYS_ADDR_START, DEPLOY_PHYS_ADDR_START >>> PAGE_SHIFT, DEPLOY_PHYS_MEM_SIZE⟩).map.SeesFriend := by
  intro a ha
  rw [inFriend_iff] at ha
  have hc : (Range.mk DEPLOY_PHYS_ADDR_START DEPLOY_PHYS_MEM_SIZE).covers a = true :=
    (Range.covers_iff (by decide)).mpr ha
  have hbase : DEPLOY_PHYS_ADDR_START >>> PAGE_SHIFT <<< PAGE_SHIFT = DEPLOY_PHYS_ADDR_START := by decide
  rw [remap]
  dsimp only
  rw [if_pos hc, hbase, BitVec.add_comm, BitVec.sub_add_cancel]

/-- `mmap_friend_mem` does not fault; when it succeeds, the first 4MB are cleared. -/
theorem mmapFriendMem_eq (p : Process) :
    p.mmapFriendMem true true = some (0,
      { (p.unmap ⟨DEPLOY_PHYS_ADDR_START, DEPLOY_PHYS_MEM_SIZE⟩).remap
          ⟨DEPLOY_PHYS_ADDR_START, DEPLOY_PHYS_ADDR_START >>> PAGE_SHIFT, DEPLOY_PHYS_MEM_SIZE⟩ with
        phys := p.phys.copy ⟨DEPLOY_PHYS_ADDR_START, 0x400000⟩ fun _ => 0 }) := by
  have hlin := (seesFriend_remap (p.unmap ⟨DEPLOY_PHYS_ADDR_START, DEPLOY_PHYS_MEM_SIZE⟩)).linear
    (a := DEPLOY_PHYS_ADDR_START) (n := 1024 * 4096) (by decide) (by decide)
  rw [mmapFriendMem, if_neg (by decide), mmap_memdevice]
  dsimp only
  rw [if_pos rfl]
  dsimp only
  rw [if_neg (by decide), storeBytes_eq _ _ hlin (by decide)]
  rfl

theorem exists_mmapFriendMem (p : Process) :
    ∃ p', p.mmapFriendMem true true = some (0, p') ∧ ∀ a, ¬InFriend a → p'.map a = p.map a := by
  refine ⟨_, p.mmapFriendMem_eq, fun a ha => ?_⟩
  have hc : (Range.mk DEPLOY_PHYS_ADDR_START DEPLOY_PHYS_MEM_SIZE).covers a ≠ true := by
    intro hc
    exact ha (inFriend_iff.mpr ((Range.covers_iff (by decide)).mp hc))
  exact (if_neg hc).trans (if_neg hc)

theorem seesFriend_of_mmapFriendMem {p p' : Process} {opened remapped : Bool}
    (h : p.mmapFriendMem opened remapped = some (0, p')) : p'.map.SeesFriend := by
  cases opened with
  | false => cases h
  | true =>
      cases remapped with
      | false => cases h
      | true =>
          rw [mmapFriendMem_eq] at h
          cases h
          exact seesFriend_remap _

end Process
end Toshokan.Hakase
