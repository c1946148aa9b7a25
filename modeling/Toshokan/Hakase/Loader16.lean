import Mathlib.Data.List.Nodup
import Toshokan.Hakase.Process

/-!
# `hakase/loader16.cc`

* `Tables` : the pages `__toshokan_pdpt`, `__toshokan_pd1` and `__toshokan_pd2` of friend memory;
* `initPageTables` : `Loader16::InitPageTables`, with its loop `mapFriend`; `Loader16.init` : `Loader16::Init`;
* `Tables.cells` : the entries that are written; `initPageTables_eq` : nothing else is;
* `installed` : physical memory after `Init`; `init_eq` : when it succeeds, and that it is then this memory.
-/

namespace Toshokan.Hakase
open Lib (Bytes Range)
open FriendLoader

/-- Where the linker puts the three pages. -/
structure Tables where
  pdpt : BitVec 64
  pd1 : BitVec 64
  pd2 : BitVec 64
  inFriend : ∀ t ∈ [pdpt, pd1, pd2], InFriend t
  aligned : ∀ t ∈ [pdpt, pd1, pd2], t.toNat % 4096 = 0
  nodup : [pdpt, pd1, pd2].Nodup

/-- The binary of `friend_boot16.S` that is linked into hakase. -/
structure Friend16 where
  start : BitVec 64 → BitVec 8
  size : BitVec 64

/-- What `mmap(NULL, size, …)` may return: free pages of the lower half. -/
structure Grant (p : Process) (size : BitVec 64) where
  base : BitVec 64
  aligned : base.toNat % 4096 = 0
  fits : base.toNat + size.toNat ≤ 2 ^ 47
  free : ∀ a, (Range.mk base size).covers a = true → p.map a = none

def k256TB : BitVec 64 := 256 * 1024 * 1024 * 1024 * 1024
def k512GB : BitVec 64 := 512 * 1024 * 1024 * 1024
def k1GB : BitVec 64 := 1024 * 1024 * 1024
def k2MB : BitVec 64 := 2 * 1024 * 1024
def kPageTableEntryFlags : BitVec 64 := 1 <<< 0 ||| 1 <<< 1 ||| 1 <<< 2
def kHugePageTableEntryFlags : BitVec 64 := 1 <<< 0 ||| 1 <<< 1 ||| 1 <<< 2 ||| 1 <<< 7

/-- `page->entry[i] = v`. -/
def Process.setEntry (p : Process) (page i v : BitVec 64) : Option Process := p.store64 (page + 8 * i) v

namespace Tables

variable (T : Tables)

/-- The loop over the pages of friend memory. -/
def mapFriend (p : Process) (addr : BitVec 64) : Option Process :=
  if _h : addr < DEPLOY_PHYS_ADDR_END then
    (p.setEntry T.pd2 (addr % k1GB / k2MB) (addr ||| kHugePageTableEntryFlags)).bind fun p =>
      mapFriend p (addr + k2MB)
  else some p
termination_by DEPLOY_PHYS_ADDR_END.toNat - addr.toNat
decreasing_by
  rw [BitVec.lt_def, toNat_end] at _h
  rw [toNat_end, BitVec.toNat_add, show k2MB.toNat = 0x200000 from rfl]
  omega

def initPageTables (p : Process) (pml4t : BitVec 64) : Option Process := do
  let p ← p.setEntry pml4t (DEPLOY_PHYS_ADDR_START % k256TB / k512GB) (T.pdpt ||| kPageTableEntryFlags)
  let p ← p.setEntry T.pdpt (TRAMPOLINE_ADDR % k512GB / k1GB) (T.pd1 ||| kPageTableEntryFlags)
  let p ← p.setEntry T.pdpt (DEPLOY_PHYS_ADDR_START % k512GB / k1GB) (T.pd2 ||| kPageTableEntryFlags)
  let trampolineAlignedAddr := TRAMPOLINE_ADDR / k2MB * k2MB
  let p ← p.setEntry T.pd1 (trampolineAlignedAddr % k1GB / k2MB) (trampolineAlignedAddr ||| kHugePageTableEntryFlags)
  T.mapFriend p DEPLOY_PHYS_ADDR_START

end Tables

/-- What `Loader16::Init` stores once the trampoline is mapped. -/
def Loader16.fill (T : Tables) (bin : Friend16) (p : Process) (entry bootmem : BitVec 64) : Option Process := do
  let p ← p.storeBytes bootmem bin.start bin.size.toNat
  let p ← p.store64 (bootmem + 8) entry
  T.initPageTables p (bootmem + PAGE_SIZE)

/-- `Loader16::Init`. `opened` and `remapped` tell whether `open` and `remap_pfn_range` succeed; `none` is a fault. -/
def Loader16.init (T : Tables) (bin : Friend16) (p : Process) (entry : BitVec 64) (opened remapped : Bool)
    (g : Grant p TRAMPOLINE_SIZE) : Option (Int × Process) :=
  if bin.size > PAGE_SIZE then some (-1, p)
  else if opened = false then some (-1, p)
  else
    let (mapped, p) := p.mmap bootmemdeviceMmap g.base TRAMPOLINE_SIZE remapped
    if mapped = false then some (-1, p)
    else (fill T bin p entry g.base).map fun p => (0, p.unmap ⟨g.base, TRAMPOLINE_SIZE⟩)

/-! ## The entries written -/

namespace Tables

variable (T : Tables)

def slot (t : BitVec 64) (i : Nat) : BitVec 64 := t + BitVec.ofNat 64 (8 * i)

def friendPage (i : Nat) : BitVec 64 := BitVec.ofNat 64 (0x100000000 + i * 0x200000)

structure Cell where
  page : BitVec 64
  index : Nat
  value : BitVec 64

def Cell.write (c : Cell) : BitVec 64 × BitVec 64 := (slot c.page c.index, c.value)

def friendCell (i : Nat) : Cell := ⟨T.pd2, i, friendPage i ||| kHugePageTableEntryFlags⟩

def cells : List Cell :=
  [⟨INITIAL_PML4T, 0, T.pdpt ||| kPageTableEntryFlags⟩, ⟨T.pdpt, 0, T.pd1 ||| kPageTableEntryFlags⟩,
    ⟨T.pdpt, 4, T.pd2 ||| kPageTableEntryFlags⟩, ⟨T.pd1, 0, 0 ||| kHugePageTableEntryFlags⟩] ++
  (List.range 512).map T.friendCell

def install (m : Bytes) (cs : List Cell) : Bytes := (cs.map Cell.write).foldl (fun m w => m.write64 w.1 w.2) m

variable {T}

theorem linear_slot {map : AddressMap} (h : map.SeesFriend) {t : BitVec 64} (ht : t ∈ [T.pdpt, T.pd1, T.pd2])
    {i : Nat} (hi : i < 512) : map.Linear (slot t i) (slot t i) 8 := by
  have hal := T.aligned t ht
  have hin := T.inFriend t ht
  have hle : t.toNat + 4096 ≤ 0x140000000 := by
    rw [inFriend_iff] at hin
    omega
  exact (h.linear hin hle).sub (8 * i) (by omega)

theorem setEntry_eq (m : Bytes) {map : AddressMap} {page pa i v : BitVec 64} {n : Nat}
    (hi : 8 * i = BitVec.ofNat 64 (8 * n)) (h : map.Linear (slot page n) (slot pa n) 8) :
    (Process.mk m map).setEntry page i v = some ⟨m.write64 (slot pa n) v, map⟩ := by
  rw [Process.setEntry, hi]
  exact Process.store64_eq m v h

theorem mapFriend_eq (k : Nat) (m : Bytes) {map : AddressMap} (h : map.SeesFriend) (hk : k ≤ 512) :
    T.mapFriend ⟨m, map⟩ (friendPage (512 - k)) =
      some ⟨install m ((List.range' (512 - k) k).map T.friendCell), map⟩ := by
  induction k generalizing m with
  | zero =>
      rw [mapFriend, dif_neg (by decide)]
      rfl
  | succ k ih =>
      have hpage : (friendPage (512 - (k + 1))).toNat = 0x100000000 + (512 - (k + 1)) * 0x200000 := by
        rw [friendPage, BitVec.toNat_ofNat, Nat.mod_eq_of_lt (by omega)]
      have hnext : friendPage (512 - (k + 1)) + k2MB = friendPage (512 - k) := by
        apply BitVec.eq_of_toNat_eq
        rw [BitVec.toNat_add, hpage, friendPage, BitVec.toNat_ofNat, show k2MB.toNat = 0x200000 from rfl]
        omega
      have hindex : 8 * (friendPage (512 - (k + 1)) % k1GB / k2MB) = BitVec.ofNat 64 (8 * (512 - (k + 1))) := by
        apply BitVec.eq_of_toNat_eq
        rw [BitVec.toNat_mul, BitVec.toNat_udiv, BitVec.toNat_umod, hpage, BitVec.toNat_ofNat,
          show k2MB.toNat = 0x200000 from rfl, show k1GB.toNat = 0x40000000 from rfl,
          Lib.toNat_eight]
        omega
      have hlt : friendPage (512 - (k + 1)) < DEPLOY_PHYS_ADDR_END := by
        rw [BitVec.lt_def, hpage, toNat_end]
        omega
      have hslot : map.Linear (slot T.pd2 (512 - (k + 1))) (slot T.pd2 (512 - (k + 1))) 8 :=
        T.linear_slot h (by simp) (by omega)
      rw [mapFriend, dif_pos hlt, setEntry_eq m hindex hslot, Option.bind_some, hnext, ih _ (by omega),
        List.range'_succ, show 512 - (k + 1) + 1 = 512 - k by omega]
      rfl

theorem initPageTables_eq (m : Bytes) {map : AddressMap} {pml4t : BitVec 64} (h : map.SeesFriend)
    (hpml4 : map.Linear pml4t INITIAL_PML4T 8) :
    T.initPageTables ⟨m, map⟩ pml4t = some ⟨install m T.cells, map⟩ := by
  have hroot : map.Linear (slot pml4t 0) (slot INITIAL_PML4T 0) 8 := hpml4.sub 0 (by decide)
  have hpdpt0 : map.Linear (slot T.pdpt 0) (slot T.pdpt 0) 8 := T.linear_slot h (by simp) (by decide)
  have hpdpt4 : map.Linear (slot T.pdpt 4) (slot T.pdpt 4) 8 := T.linear_slot h (by simp) (by decide)
  have hpd1 : map.Linear (slot T.pd1 0) (slot T.pd1 0) 8 := T.linear_slot h (by simp) (by decide)
  have hstart : friendPage (512 - 512) = DEPLOY_PHYS_ADDR_START := by decide
  have hpage : TRAMPOLINE_ADDR / k2MB * k2MB ||| kHugePageTableEntryFlags = 0 ||| kHugePageTableEntryFlags := by decide
  simp only [initPageTables, Option.bind_eq_bind]
  rw [setEntry_eq m (by decide) hroot, Option.bind_some, setEntry_eq _ (by decide) hpdpt0, Option.bind_some,
    setEntry_eq _ (by decide) hpdpt4, Option.bind_some, setEntry_eq _ (by decide) hpd1, Option.bind_some, ← hstart,
    mapFriend_eq 512 _ h le_rfl, hpage, cells, install, install, List.map_append, List.foldl_append, List.range_eq_range']
  rfl

end Tables

/-! ## `Init` -/

namespace Loader16

/-- Physical memory after `Init`, from what it was before. -/
def installed (T : Tables) (bin : Friend16) (entry : BitVec 64) (m : Bytes) : Bytes :=
  Tables.install ((m.copy ⟨TRAMPOLINE_ADDR, bin.size⟩ bin.start).write64 (TRAMPOLINE_ADDR + 8) entry) T.cells

theorem mmap_bootmemdevice (p : Process) (base : BitVec 64) (remapped : Bool) :
    p.mmap bootmemdeviceMmap base TRAMPOLINE_SIZE remapped =
      let q := p.unmap ⟨base, TRAMPOLINE_SIZE⟩
      if remapped = true then (true, q.remap ⟨base, TRAMPOLINE_ADDR >>> PAGE_SHIFT, TRAMPOLINE_SIZE⟩)
      else (false, q) := by
  have hsize : base + TRAMPOLINE_SIZE - base = TRAMPOLINE_SIZE := by rw [BitVec.add_comm, BitVec.add_sub_cancel]
  have hdriver : bootmemdeviceMmap ⟨base, base + TRAMPOLINE_SIZE, 0, false⟩ remapped =
      remapPfnRange ⟨base, base + TRAMPOLINE_SIZE, 0, false⟩
        ⟨base, TRAMPOLINE_ADDR >>> PAGE_SHIFT, TRAMPOLINE_SIZE⟩ remapped := by
    rw [bootmemdeviceMmap]
    dsimp only
    rw [hsize]
    rfl
  rw [Process.mmap, hdriver]
  cases remapped <;> rfl

variable {T : Tables} {bin : Friend16} {p : Process} {entry : BitVec 64}

theorem unmap_grant {size : BitVec 64} (g : Grant p size) : p.unmap ⟨g.base, size⟩ = p := by
  rw [Process.unmap]
  congr 1
  funext a
  split
  · exact (g.free a ‹_›).symm
  · rfl

theorem unmap_remap_grant {size : BitVec 64} (pfn : BitVec 64) (g : Grant p size) (m : Bytes) :
    Process.unmap ⟨m, (p.remap ⟨g.base, pfn, size⟩).map⟩ ⟨g.base, size⟩ = ⟨m, p.map⟩ := by
  rw [Process.unmap]
  congr 1
  funext a
  split
  · exact (g.free a ‹_›).symm
  · rw [Process.remap]
    exact if_neg ‹_›

/-- The trampoline is mapped apart from friend memory. -/
theorem seesFriend_remap_grant {size : BitVec 64} (pfn : BitVec 64) (g : Grant p size) (h : p.map.SeesFriend) :
    (p.remap ⟨g.base, pfn, size⟩).map.SeesFriend := by
  intro a ha
  rw [Process.remap]
  refine (if_neg fun hc => ?_).trans (h a ha)
  have hnone := g.free a hc
  rw [h a ha] at hnone
  cases hnone

variable (T bin entry) in
theorem fill_eq (m : Bytes) {map : AddressMap} {bootmem : BitVec 64} (h : map.SeesFriend)
    (hlin : map.Linear bootmem TRAMPOLINE_ADDR 0x2000) (hsize : bin.size.toNat ≤ 0x1000) :
    fill T bin ⟨m, map⟩ entry bootmem = some ⟨installed T bin entry m, map⟩ := by
  have hentry : map.Linear (bootmem + 8) (TRAMPOLINE_ADDR + 8) 8 := hlin.sub 8 (by decide)
  have hpml4 : map.Linear (bootmem + PAGE_SIZE) INITIAL_PML4T 8 := hlin.sub 0x1000 (by decide)
  simp only [fill, Option.bind_eq_bind]
  rw [Process.storeBytes_eq m _ (hlin.mono (by omega)) (by omega), Option.bind_some, Process.store64_eq _ _ hentry,
    Option.bind_some, Tables.initPageTables_eq _ h hpml4, BitVec.ofNat_toNat, BitVec.setWidth_eq]
  rfl

/-- **`Init` does not fault; it succeeds iff the binary fits and the device can be mapped.** -/
theorem init_eq (h : p.map.SeesFriend) (opened remapped : Bool) (g : Grant p TRAMPOLINE_SIZE) :
    init T bin p entry opened remapped g =
      if bin.size ≤ PAGE_SIZE ∧ opened = true ∧ remapped = true then some (0, ⟨installed T bin entry p.phys, p.map⟩)
      else some (-1, p) := by
  rw [init, mmap_bootmemdevice, unmap_grant]
  by_cases hsize : bin.size > PAGE_SIZE
  · rw [if_pos hsize, if_neg fun hc => BitVec.not_le.mpr hsize hc.1]
  rw [if_neg hsize]
  cases opened with
  | false => rw [if_pos rfl, if_neg fun hc => Bool.false_ne_true hc.2.1]
  | true =>
      cases remapped with
      | false =>
          refine Eq.trans ?_ (if_neg fun hc => Bool.false_ne_true hc.2.2).symm
          rfl
      | true =>
          have hfits : bin.size.toNat ≤ 0x1000 := BitVec.le_def.mp (BitVec.not_lt.mp hsize)
          let pfn := TRAMPOLINE_ADDR >>> PAGE_SHIFT
          have hlin : (p.remap ⟨g.base, pfn, TRAMPOLINE_SIZE⟩).map.Linear g.base TRAMPOLINE_ADDR 0x2000 := by
            have hframe : pfn <<< PAGE_SHIFT = TRAMPOLINE_ADDR := by decide
            rw [← hframe]
            exact p.linear_remap ⟨g.base, pfn, TRAMPOLINE_SIZE⟩
          have hfill := fill_eq T bin entry p.phys (seesFriend_remap_grant pfn g h) hlin hfits
          have hunmap := unmap_remap_grant pfn g (installed T bin entry p.phys)
          refine Eq.trans ?_ (if_pos ⟨BitVec.not_lt.mp hsize, rfl, rfl⟩).symm
          refine (congrArg (Option.map _) hfill).trans ?_
          rw [Option.map_some, hunmap]

theorem init_fits (T : Tables) (bin : Friend16) (entry : BitVec 64) (h : p.map.SeesFriend)
    (hsize : bin.size ≤ PAGE_SIZE) (g : Grant p TRAMPOLINE_SIZE) :
    init T bin p entry true true g = some (0, ⟨installed T bin entry p.phys, p.map⟩) := by
  rw [init_eq h]
  exact if_pos ⟨hsize, rfl, rfl⟩

theorem init_success {p' : Process} {opened remapped : Bool} {g : Grant p TRAMPOLINE_SIZE} (hmap : p.map.SeesFriend)
    (h : init T bin p entry opened remapped g = some (0, p')) :
    bin.size ≤ PAGE_SIZE ∧ p' = ⟨installed T bin entry p.phys, p.map⟩ := by
  rw [init_eq hmap] at h
  split at h
  · rename_i hc
    exact ⟨hc.1, (Prod.mk.inj (Option.some.inj h)).2.symm⟩
  · exact absurd (Prod.mk.inj (Option.some.inj h)).1 (by decide)

end Loader16
end Toshokan.Hakase
