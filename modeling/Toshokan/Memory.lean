import Mathlib.Data.BitVec

/-!
# `common/memory.h`

The regions hakase and friend agree on, as 64-bit addresses, and their values for arithmetic.
-/

namespace Toshokan

def DEPLOY_PHYS_ADDR_START : BitVec 64 := 0x100000000
def DEPLOY_PHYS_ADDR_END : BitVec 64 := 0x140000000
def DEPLOY_PHYS_MEM_SIZE : BitVec 64 := DEPLOY_PHYS_ADDR_END - DEPLOY_PHYS_ADDR_START
def PAGE_SIZE : BitVec 64 := 0x1000
def TRAMPOLINE_ADDR : BitVec 64 := 0x70000
def TRAMPOLINE_SIZE : BitVec 64 := 0x2000
def INITIAL_PML4T : BitVec 64 := TRAMPOLINE_ADDR + PAGE_SIZE

@[simp] theorem toNat_start : DEPLOY_PHYS_ADDR_START.toNat = 0x100000000 := rfl

@[simp] theorem toNat_end : DEPLOY_PHYS_ADDR_END.toNat = 0x140000000 := rfl

theorem toNat_trampoline_addr : TRAMPOLINE_ADDR.toNat = 0x70000 := rfl

theorem toNat_trampoline_size : TRAMPOLINE_SIZE.toNat = 0x2000 := rfl

theorem toNat_initial_pml4t : INITIAL_PML4T.toNat = 0x71000 := rfl

def InFriend (a : BitVec 64) : Prop := DEPLOY_PHYS_ADDR_START ≤ a ∧ a < DEPLOY_PHYS_ADDR_END

instance (a : BitVec 64) : Decidable (InFriend a) := inferInstanceAs (Decidable (_ ∧ _))

theorem inFriend_iff {a : BitVec 64} : InFriend a ↔ 0x100000000 ≤ a.toNat ∧ a.toNat < 0x140000000 := by
  rw [InFriend, BitVec.le_def, BitVec.lt_def, toNat_start, toNat_end]

end Toshokan
