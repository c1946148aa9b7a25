import Toshokan.Lib.Bytes
import Toshokan.Lib.Scan
import Toshokan.Memory
import Mathlib.Data.List.TakeWhile

/-!
# `hakase/elf_loader.cc`: loading the friend binary

`ElfLoader::Deploy` copies the `PT_LOAD` segments of an image to their addresses and clears its allocated `SHT_NOBITS`
sections, both after `CheckMemoryRegion`.

* `ElfLoader` : the image; `Phdr`, `Shdr` : the wrappers of its table entries; `deploy` : `Deploy`, on a memory, with a
  record of what it accesses;
* `loads`, `bss` : what the two tables ask for, in order; `ranges` : all memory ranges `Deploy` comes to;
* `deploy_accepts`, `deploy_writes`, `deploy_mem` : its verdict, the ranges it writes, and the memory it leaves.
-/

namespace Toshokan.Hakase
open Lib (Bytes Range)

/-! ## `common/elfhead.h` -/

def ELFMAG0 : BitVec 8 := 0x7f
def ELFMAG1 : BitVec 8 := 0x45
def ELFMAG2 : BitVec 8 := 0x4c
def ELFMAG3 : BitVec 8 := 0x46
def EI_CLASS : BitVec 64 := 4
def ELFCLASS64 : BitVec 8 := 2
def EI_OSABI : BitVec 64 := 7
def ELFOSABI_SYSV : BitVec 8 := 0
def ELFOSABI_GNU : BitVec 8 := 3
def ET_EXEC : BitVec 16 := 2
def PT_LOAD : BitVec 32 := 1
def SHT_NOBITS : BitVec 32 := 8
def SHF_ALLOC : BitVec 64 := 1 <<< 1

/-- `class ElfLoader`: the memory from `_addr` on, by offset, and `_len`. `Deploy` does not write to its image. -/
structure ElfLoader where
  addr : Bytes
  len : BitVec 64

/-- `class Phdr`: a pointer to an `Elf64_Phdr`, as an offset into the image. -/
structure Phdr where
  raw : BitVec 64
  deriving DecidableEq, Repr

structure Shdr where
  raw : BitVec 64
  deriving DecidableEq, Repr

structure PhdrInfo where
  vaddr : BitVec 64
  fileOffset : BitVec 64
  size : BitVec 64
  deriving DecidableEq, Repr

structure SectionInfo where
  vaddr : BitVec 64
  size : BitVec 64
  deriving DecidableEq, Repr

def PhdrInfo.range (i : PhdrInfo) : Range := ⟨i.vaddr, i.size⟩

def SectionInfo.range (i : SectionInfo) : Range := ⟨i.vaddr, i.size⟩

@[simp] theorem PhdrInfo.range_base (i : PhdrInfo) : i.range.base = i.vaddr := rfl

@[simp] theorem PhdrInfo.range_size (i : PhdrInfo) : i.range.size = i.size := rfl

/-- What `Deploy` touches: a header, the source of a copy, a destination. -/
inductive Access
  | ehdr
  | phdr (p : Phdr)
  | shdr (p : Shdr)
  | memcpy (dst : Range) (src : BitVec 64)
  | memset (dst : Range)
  deriving DecidableEq, Repr

def Access.written : Access → Option Range
  | .memcpy dst _ | .memset dst => some dst
  | _ => none

/-- The memory of hakase's process, and what `Deploy` has touched so far. -/
structure Loading where
  mem : Bytes
  trace : List Access

def Loading.touch (s : Loading) (a : Access) : Loading := { s with trace := s.trace ++ [a] }

def Loading.writes (s : Loading) : List Range := s.trace.filterMap Access.written

/-- `CheckMemoryRegion`. The sum is taken in 64 bits. -/
def checkMemoryRegion (vaddr size : BitVec 64) : Bool :=
  !(vaddr < DEPLOY_PHYS_ADDR_START || vaddr + size > DEPLOY_PHYS_ADDR_END)

def accepts (r : Range) : Bool := checkMemoryRegion r.base r.size

/-- `GetPhdrOffset` and `GetShdrOffset`: the entry `index` of a table of `num` entries at `off`. The product is an `int`,
extended to 64 bits for the sum. -/
def entryOffset (num : BitVec 16) (off : BitVec 64) (entsize : BitVec 16) (index : Nat) : BitVec 64 :=
  if num.toNat > index then off + (entsize.setWidth 32 * BitVec.ofNat 32 index).signExtend 64 else 0

/-- One turn of a loop of `Deploy`: look at the entry `x`; if it asks for memory, check the range and fill it. -/
def deployEntry {α β : Type} (header : α → Access) (info : α → Option β) (range : β → Range)
    (fill : β → Loading → Loading) (x : α) (s : Loading) : Bool × Loading :=
  let s := s.touch (header x)
  match info x with
  | none => (true, s)
  | some i => if accepts (range i) = true then (true, fill i s) else (false, s)

namespace ElfLoader

variable (e : ElfLoader)

/-! ## `class Ehdr` -/

def eIdent (i : BitVec 64) : BitVec 8 := e.addr i
def eType : BitVec 16 := e.addr.read16 16
def eEntry : BitVec 64 := e.addr.read64 24
def ePhoff : BitVec 64 := e.addr.read64 32
def eShoff : BitVec 64 := e.addr.read64 40
def ePhentsize : BitVec 16 := e.addr.read16 54
def ePhnum : BitVec 16 := e.addr.read16 56
def eShentsize : BitVec 16 := e.addr.read16 58
def eShnum : BitVec 16 := e.addr.read16 60

def isElf : Bool :=
  e.eIdent 0 == ELFMAG0 && e.eIdent 1 == ELFMAG1 && e.eIdent 2 == ELFMAG2 && e.eIdent 3 == ELFMAG3

def isElf64 : Bool := e.eIdent EI_CLASS == ELFCLASS64
def isOsabiSysv : Bool := e.eIdent EI_OSABI == ELFOSABI_SYSV
def isOsabiGnu : Bool := e.eIdent EI_OSABI == ELFOSABI_GNU
def isExecutable : Bool := e.eType == ET_EXEC
def getEntry : BitVec 64 := e.eEntry
def getPhdrOffset (index : Nat) : BitVec 64 := entryOffset e.ePhnum e.ePhoff e.ePhentsize index
def getShdrOffset (index : Nat) : BitVec 64 := entryOffset e.eShnum e.eShoff e.eShentsize index

/-! ## `class Phdr`, `class Shdr` -/

def pType (p : Phdr) : BitVec 32 := e.addr.read32 p.raw
def pOffset (p : Phdr) : BitVec 64 := e.addr.read64 (p.raw + 8)
def pVaddr (p : Phdr) : BitVec 64 := e.addr.read64 (p.raw + 16)
def pFilesz (p : Phdr) : BitVec 64 := e.addr.read64 (p.raw + 32)
def pMemsz (p : Phdr) : BitVec 64 := e.addr.read64 (p.raw + 40)
def shType (p : Shdr) : BitVec 32 := e.addr.read32 (p.raw + 4)
def shFlags (p : Shdr) : BitVec 64 := e.addr.read64 (p.raw + 8)
def shAddr (p : Shdr) : BitVec 64 := e.addr.read64 (p.raw + 16)
def shSize (p : Shdr) : BitVec 64 := e.addr.read64 (p.raw + 32)

def getInfoIfLoad (p : Phdr) : Option PhdrInfo :=
  if e.pType p = PT_LOAD then some ⟨e.pVaddr p, e.pOffset p, e.pFilesz p⟩ else none

def getInfoIfBss (p : Shdr) : Option SectionInfo :=
  if e.shType p = SHT_NOBITS ∧ e.shFlags p &&& SHF_ALLOC ≠ 0 then some ⟨e.shAddr p, e.shSize p⟩ else none

def createPhdr (offset : BitVec 64) : Option Phdr := if offset = 0 then none else some ⟨offset⟩

def createShdr (offset : BitVec 64) : Option Shdr := if offset = 0 then none else some ⟨offset⟩

/-! ## `Deploy` -/

/-- `memcpy(vaddr, _addr + file_offset, size)`. -/
def memcpy (i : PhdrInfo) (s : Loading) : Loading :=
  { mem := s.mem.copy i.range fun k => e.addr (i.fileOffset + k), trace := s.trace ++ [.memcpy i.range i.fileOffset] }

/-- `memset(vaddr, 0, size)`. -/
def memset (i : SectionInfo) (s : Loading) : Loading :=
  { mem := s.mem.copy i.range fun _ => 0, trace := s.trace ++ [.memset i.range] }

def loadSegment : Phdr → Loading → Bool × Loading :=
  deployEntry .phdr e.getInfoIfLoad PhdrInfo.range e.memcpy

def clearSection : Shdr → Loading → Bool × Loading :=
  deployEntry .shdr e.getInfoIfBss SectionInfo.range memset

def nextPhdr (i : Nat) : Option Phdr := createPhdr (e.getPhdrOffset i)

def nextShdr (i : Nat) : Option Shdr := createShdr (e.getShdrOffset i)

theorem nextPhdr_none (i : Nat) (h : e.ePhnum.toNat ≤ i) : e.nextPhdr i = none := by
  rw [nextPhdr, getPhdrOffset, entryOffset, if_neg (by omega), createPhdr, if_pos rfl]

theorem nextShdr_none (i : Nat) (h : e.eShnum.toNat ≤ i) : e.nextShdr i = none := by
  rw [nextShdr, getShdrOffset, entryOffset, if_neg (by omega), createShdr, if_pos rfl]

/-- The two loops. -/
def loadSegments (s : Loading) : Bool × Loading :=
  Lib.scan e.nextPhdr e.loadSegment e.ePhnum.toNat e.nextPhdr_none 0 s

def clearSections (s : Loading) : Bool × Loading :=
  Lib.scan e.nextShdr e.clearSection e.eShnum.toNat e.nextShdr_none 0 s

def deploy (mem : Bytes) : Bool × Loading :=
  let s : Loading := ⟨mem, [.ehdr]⟩
  if (!e.isElf || !e.isElf64 || (!e.isOsabiSysv && !e.isOsabiGnu)) = true then (false, s)
  else if (!e.isExecutable) = true then (false, s)
  else if (e.loadSegments s).1 = true then e.clearSections (e.loadSegments s).2
  else e.loadSegments s

/-! ## What it does -/

def headerOk : Bool := e.isElf && e.isElf64 && (e.isOsabiSysv || e.isOsabiGnu) && e.isExecutable

/-- The table entries `Deploy` can come to. -/
def phdrs : List Phdr := Lib.entries e.nextPhdr e.ePhnum.toNat 0

def shdrs : List Shdr := Lib.entries e.nextShdr e.eShnum.toNat 0

def loads : List PhdrInfo := e.phdrs.filterMap e.getInfoIfLoad

def bss : List SectionInfo := e.shdrs.filterMap e.getInfoIfBss

/-- The memory ranges asked for, in the order `Deploy` comes to them. -/
def ranges : List Range := e.loads.map PhdrInfo.range ++ e.bss.map SectionInfo.range

end ElfLoader

/-! ## The loops -/

section Sweep
variable {α β : Type} {header : α → Access} {info : α → Option β} {range : β → Range} {fill : β → Loading → Loading}

/-- The verdict of a loop, the ranges it writes, and its memory if nothing is rejected. -/
theorem sweep_deployEntry (hh : ∀ x, (header x).written = none) (hf : ∀ i s, (fill i s).writes = s.writes ++ [range i])
    {set : β → Bytes → Bytes} (hm : ∀ i s, (fill i s).mem = set i s.mem) (xs : List α) (s : Loading) :
    (Lib.sweep (deployEntry header info range fill) xs s).1 = (xs.filterMap info).all (fun i => accepts (range i)) ∧
    (Lib.sweep (deployEntry header info range fill) xs s).2.writes =
      s.writes ++ ((xs.filterMap info).map range).takeWhile accepts ∧
    ((Lib.sweep (deployEntry header info range fill) xs s).1 = true →
      (Lib.sweep (deployEntry header info range fill) xs s).2.mem =
        (xs.filterMap info).foldl (fun m i => set i m) s.mem) := by
  have htouch : ∀ x (s : Loading), (s.touch (header x)).writes = s.writes := by
    intro x s
    simp [Loading.touch, Loading.writes, hh x]
  induction xs generalizing s with
  | nil => simp [Lib.sweep]
  | cons x xs ih =>
      cases hi : info x with
      | none =>
          have hbody : deployEntry header info range fill x s = (true, s.touch (header x)) := by
            rw [deployEntry, hi]
          have := ih (s.touch (header x))
          rw [htouch] at this
          simp only [Lib.sweep, hbody, if_true, List.filterMap_cons_none hi]
          exact this
      | some i =>
          by_cases ha : accepts (range i) = true
          · have hbody : deployEntry header info range fill x s = (true, fill i (s.touch (header x))) := by
              rw [deployEntry, hi]
              exact if_pos ha
            have := ih (fill i (s.touch (header x)))
            rw [hf, htouch, hm, List.append_assoc] at this
            simp only [Lib.sweep, hbody, if_true, List.filterMap_cons_some hi, List.all_cons, ha, Bool.true_and,
              List.map_cons, List.takeWhile_cons, List.foldl_cons]
            exact this
          · have hbody : deployEntry header info range fill x s = (false, s.touch (header x)) := by
              rw [deployEntry, hi]
              exact if_neg ha
            simp [Lib.sweep, hbody, hi, ha, htouch]

end Sweep

namespace ElfLoader

variable (e : ElfLoader)

theorem loadSegments_spec (s : Loading) :
    (e.loadSegments s).1 = e.loads.all (fun i => accepts i.range) ∧
    (e.loadSegments s).2.writes = s.writes ++ (e.loads.map PhdrInfo.range).takeWhile accepts ∧
    ((e.loadSegments s).1 = true → (e.loadSegments s).2.mem =
      e.loads.foldl (fun m i => m.copy i.range fun k => e.addr (i.fileOffset + k)) s.mem) := by
  unfold loadSegments
  rw [Lib.scan_eq_sweep]
  refine sweep_deployEntry (fun _ => rfl) (fun i s => ?_) (fun _ _ => rfl) _ s
  simp [memcpy, Loading.writes, Access.written]

theorem clearSections_spec (s : Loading) :
    (e.clearSections s).1 = e.bss.all (fun i => accepts i.range) ∧
    (e.clearSections s).2.writes = s.writes ++ (e.bss.map SectionInfo.range).takeWhile accepts ∧
    ((e.clearSections s).1 = true → (e.clearSections s).2.mem =
      e.bss.foldl (fun m i => m.copy i.range fun _ => 0) s.mem) := by
  unfold clearSections
  rw [Lib.scan_eq_sweep]
  refine sweep_deployEntry (fun _ => rfl) (fun i s => ?_) (fun _ _ => rfl) _ s
  simp [memset, Loading.writes, Access.written]

theorem deploy_eq (mem : Bytes) :
    e.deploy mem = if e.headerOk = true then
      if (e.loadSegments ⟨mem, [.ehdr]⟩).1 = true then e.clearSections (e.loadSegments ⟨mem, [.ehdr]⟩).2
      else e.loadSegments ⟨mem, [.ehdr]⟩
    else (false, ⟨mem, [.ehdr]⟩) := by
  unfold deploy headerOk
  cases e.isElf <;> cases e.isElf64 <;> cases e.isOsabiSysv <;> cases e.isOsabiGnu <;> cases e.isExecutable <;> rfl

/-- **The verdict**: the header checks, and every range accepted. -/
theorem deploy_accepts (mem : Bytes) : (e.deploy mem).1 = (e.headerOk && e.ranges.all accepts) := by
  obtain ⟨h1, -, -⟩ := e.loadSegments_spec ⟨mem, [.ehdr]⟩
  obtain ⟨h2, -, -⟩ := e.clearSections_spec (e.loadSegments ⟨mem, [.ehdr]⟩).2
  rw [deploy_eq, ranges, List.all_append, List.all_map, List.all_map]
  cases e.headerOk with
  | false => rfl
  | true =>
      rw [if_pos rfl, Bool.true_and]
      split
      · rename_i hl
        rw [h2, show (e.loads.all (accepts ∘ PhdrInfo.range)) = true from h1.symm.trans hl, Bool.true_and]
        rfl
      · rename_i hl
        rw [Bool.not_eq_true] at hl
        rw [show (e.loads.all (accepts ∘ PhdrInfo.range)) = false from h1.symm.trans hl, hl, Bool.false_and]

/-- **The ranges written**: those asked for, up to the first that is rejected. -/
theorem deploy_writes (mem : Bytes) :
    (e.deploy mem).2.writes = if e.headerOk = true then e.ranges.takeWhile accepts else [] := by
  obtain ⟨h1, hw1, -⟩ := e.loadSegments_spec ⟨mem, [.ehdr]⟩
  obtain ⟨-, hw2, -⟩ := e.clearSections_spec (e.loadSegments ⟨mem, [.ehdr]⟩).2
  have h0 : Loading.writes ⟨mem, [.ehdr]⟩ = [] := rfl
  rw [deploy_eq]
  split
  · have hall : (e.loads.map PhdrInfo.range).all accepts = (e.loadSegments ⟨mem, [.ehdr]⟩).1 := by
      rw [h1, List.all_map]
      rfl
    split
    · rename_i hl
      rw [hw2, hw1, h0, List.nil_append, ranges]
      rw [hl, List.all_eq_true] at hall
      rw [List.takeWhile_append_of_pos hall, List.takeWhile_eq_self_iff.mpr hall]
    · rename_i hl
      rw [hw1, h0, List.nil_append, ranges, List.takeWhile_append, if_neg]
      intro hlen
      refine hl (hall ▸ ?_)
      rw [List.all_eq_true]
      exact List.takeWhile_eq_self_iff.mp ((List.takeWhile_prefix _).eq_of_length hlen)
  · rfl

/-- **The memory**: after a successful `Deploy` a byte is 0 where a cleared section covers it, else what the last
segment that covers it has there, else what it was. -/
theorem deploy_mem (mem : Bytes) (h : (e.deploy mem).1 = true) (a : BitVec 64) :
    (e.deploy mem).2.mem a =
      if e.bss.any (fun i => i.range.covers a) = true then 0
      else ((e.loads.reverse.find? fun i => i.range.covers a).map
        fun i => e.addr (i.fileOffset + (a - i.vaddr))).getD (mem a) := by
  obtain ⟨h1, -, hm1⟩ := e.loadSegments_spec ⟨mem, [.ehdr]⟩
  obtain ⟨h2, -, hm2⟩ := e.clearSections_spec (e.loadSegments ⟨mem, [.ehdr]⟩).2
  rw [deploy_eq] at h ⊢
  split at h
  · split at h
    · rename_i hh hl
      rw [if_pos hh, if_pos hl, hm2 h, Bytes.foldl_copy SectionInfo.range, hm1 hl, Bytes.foldl_copy PhdrInfo.range]
      cases hf : e.bss.reverse.find? fun i => i.range.covers a with
      | none =>
          rw [if_neg]
          · rfl
          · rw [List.find?_eq_none] at hf
            rw [List.any_eq_true]
            rintro ⟨i, hi, hc⟩
            exact hf i (List.mem_reverse.mpr hi) hc
      | some i =>
          rw [if_pos]
          · rfl
          · rw [List.any_eq_true]
            have hc := List.find?_some hf
            exact ⟨i, List.mem_reverse.mp (List.mem_of_find?_eq_some hf), hc⟩
    · rename_i hl
      exact absurd h hl
  · cases h

end ElfLoader
end Toshokan.Hakase
