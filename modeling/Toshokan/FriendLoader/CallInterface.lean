import Toshokan.Memory

/-!
# `FriendLoader/call_interface.c`: `mmap` of the memory devices

* `Vma` : the `vm_area_struct` the kernel hands to a driver; `Remap` : a call of `remap_pfn_range`;
* `memdeviceMmap`, `bootmemdeviceMmap` : the `mmap` operations of `/dev/friend_mem` and `/dev/friend_bootmem0x70000`.
-/

namespace Toshokan.FriendLoader

def PAGE_SHIFT : Nat := 12
def EINVAL : Int := 22
def EAGAIN : Int := 11

/-- `struct vm_area_struct`: `vmOps` tells whether `vm_ops` is set to `mmap_vm_ops`. -/
structure Vma where
  vmStart : BitVec 64
  vmEnd : BitVec 64
  vmPgoff : BitVec 64
  vmOps : Bool
  deriving DecidableEq, Repr

structure Remap where
  addr : BitVec 64
  pfn : BitVec 64
  size : BitVec 64
  deriving DecidableEq, Repr

/-- The value returned, the `vma` as it is left, and the call of `remap_pfn_range`, if it was reached. -/
structure MmapResult where
  ret : Int
  vma : Vma
  call : Option Remap
  deriving DecidableEq, Repr

/-- The end of both operations. `ok` tells whether `remap_pfn_range` succeeds. -/
def remapPfnRange (vma : Vma) (r : Remap) (ok : Bool) : MmapResult :=
  ⟨if ok = true then 0 else -EAGAIN, { vma with vmOps := true }, some r⟩

def memdeviceMmap (vma : Vma) (ok : Bool) : MmapResult :=
  let size := vma.vmEnd - vma.vmStart
  let physStart := vma.vmPgoff <<< PAGE_SHIFT
  let physEnd := physStart + size
  if physEnd - 1 < physStart then ⟨-EINVAL, vma, none⟩
  else if physStart > DEPLOY_PHYS_MEM_SIZE ∨ physEnd > DEPLOY_PHYS_MEM_SIZE then ⟨-EINVAL, vma, none⟩
  else remapPfnRange vma ⟨vma.vmStart, vma.vmPgoff + (DEPLOY_PHYS_ADDR_START >>> PAGE_SHIFT), size⟩ ok

def bootmemdeviceMmap (vma : Vma) (ok : Bool) : MmapResult :=
  let size := vma.vmEnd - vma.vmStart
  if vma.vmPgoff > 0 then ⟨-EINVAL, vma, none⟩
  else if size ≠ TRAMPOLINE_SIZE then ⟨-EINVAL, vma, none⟩
  else remapPfnRange vma ⟨vma.vmStart, TRAMPOLINE_ADDR >>> PAGE_SHIFT, size⟩ ok

end Toshokan.FriendLoader
