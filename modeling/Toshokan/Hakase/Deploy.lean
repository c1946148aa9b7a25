import Toshokan.Hakase.Walk

/-!
# Where `Deploy` writes, and what it leaves there

* `accepts_iff`, `deploy_writes_friend_iff` : `CheckMemoryRegion` takes the end of a range modulo 2^64, so `Deploy`
  stays in friend memory iff it does not come to a range that wraps around (`WrapsIn`);
* `WellFormed` : an executable whose segments fit; `Realised` : its memory image, segments filled up with zeros;
* `put`, `Supplied` : the bytes that `Deploy` sets, and that they are those of the segments; `deploy_realises_iff` : for
  which well-formed images `Deploy` realises it whatever the memory held before. Zeros come from the section headers
  alone, so the sections have to cover the tails of the segments and nothing else;
* `overflow_accepted`, `stripped_not_cleared` : images for which they do not.
-/

namespace Toshokan.Hakase
open Lib (Bytes Range)

/-! ## `CheckMemoryRegion` -/

theorem accepts_iff {r : Range} :
    accepts r = true ↔ 0x100000000 ≤ r.base.toNat ∧ (r.base + r.size).toNat ≤ 0x140000000 := by
  rw [accepts, checkMemoryRegion, Bool.not_eq_true', Bool.or_eq_false_iff, decide_eq_false_iff_not,
    decide_eq_false_iff_not, BitVec.not_lt, gt_iff_lt, BitVec.not_lt, BitVec.le_def, BitVec.le_def, toNat_start, toNat_end]

theorem accepts_iff_of_not_overflows {r : Range} (h : ¬ r.Overflows) :
    accepts r = true ↔ 0x100000000 ≤ r.base.toNat ∧ r.base.toNat + r.size.toNat ≤ 0x140000000 := by
  unfold Range.Overflows at h
  rw [accepts_iff, BitVec.toNat_add, Nat.mod_eq_of_lt (by omega)]

/-- An accepted range lies in friend memory iff it does not end beyond the last address. -/
theorem accepted_inFriend_iff {r : Range} (ha : accepts r = true) :
    (∀ a, r.covers a = true → InFriend a) ↔ ¬ r.Overflows := by
  constructor
  · intro h ho
    have := inFriend_iff.mp (h _ (Range.covers_last_of_overflows ho))
    rw [BitVec.toNat_allOnes] at this
    omega
  · intro ho a hc
    rw [accepts_iff_of_not_overflows ho] at ha
    rw [Range.covers_iff (by omega)] at hc
    rw [inFriend_iff]
    omega

/-- The range starts in friend memory or above and ends beyond the last address, by so much that its end, modulo 2^64,
is not above friend memory. -/
def WrapsIn (r : Range) : Prop :=
  0x100000000 ≤ r.base.toNat ∧ 2 ^ 64 ≤ r.base.toNat + r.size.toNat ∧
    r.base.toNat + r.size.toNat ≤ 2 ^ 64 + 0x140000000

theorem wrapsIn_iff {r : Range} : WrapsIn r ↔ accepts r = true ∧ r.Overflows := by
  have hb := r.base.isLt
  have hs := r.size.isLt
  rw [accepts_iff, BitVec.toNat_add, WrapsIn, Range.Overflows]
  omega

/-- **`Deploy` writes only friend memory iff it does not come to a range that wraps around**, and `CheckMemoryRegion` is
right about the other ranges only. -/
theorem deploy_writes_friend_iff (e : ElfLoader) (mem : Bytes) :
    ((∀ a, (∃ r ∈ (e.deploy mem).2.writes, r.covers a = true) → InFriend a) ↔
      (e.headerOk = true → ∀ r ∈ e.ranges.takeWhile accepts, ¬ WrapsIn r)) ∧
    ∀ vaddr size : BitVec 64,
      (checkMemoryRegion vaddr size = true → DEPLOY_PHYS_ADDR_START ≤ vaddr ∧
        vaddr.toNat + size.toNat ≤ DEPLOY_PHYS_ADDR_END.toNat) ↔ ¬ WrapsIn ⟨vaddr, size⟩ := by
  constructor
  · rw [e.deploy_writes mem]
    split
    · rename_i hh
      constructor
      · intro h _ r hr hw
        exact (accepted_inFriend_iff (List.mem_takeWhile_imp hr)).mp (fun a ha => h a ⟨r, hr, ha⟩)
          (wrapsIn_iff.mp hw).2
      · rintro h a ⟨r, hr, ha⟩
        have hacc : accepts r = true := List.mem_takeWhile_imp hr
        exact (accepted_inFriend_iff hacc).mpr (fun ho => h hh r hr (wrapsIn_iff.mpr ⟨hacc, ho⟩)) a ha
    · rename_i hh
      exact ⟨fun _ h => absurd h hh, by rintro - a ⟨r, hr, -⟩; cases hr⟩
  · intro vaddr size
    rw [wrapsIn_iff]
    constructor
    · rintro h ⟨hc, ho⟩
      have hend := (h hc).2
      have hover : 2 ^ 64 ≤ vaddr.toNat + size.toNat := ho
      rw [toNat_end] at hend
      omega
    · intro h hc
      have ho : ¬ (⟨vaddr, size⟩ : Range).Overflows := fun ho => h ⟨hc, ho⟩
      rw [BitVec.le_def, toNat_start, toNat_end]
      exact (accepts_iff_of_not_overflows ho).mp hc

/-- A segment of one byte at the last address: its end is 0, so it is accepted and written. -/
theorem overflow_accepted :
    let e := ofBytes (ehdrBytes 1 0 ++ loadBytes 0 0xffffffffffffffff 1 1)
    let mem : Bytes := fun _ => 0
    (e.deploy mem).1 = true ∧ (e.deploy mem).2.writes = [⟨0xffffffffffffffff, 1⟩] ∧
      ¬ ∀ a, (∃ r ∈ (e.deploy mem).2.writes, r.covers a = true) → InFriend a := by
  intro e mem
  have hhead : e.headerOk = true := by decide +kernel
  have hranges : e.ranges = [⟨0xffffffffffffffff, 1⟩] := by decide +kernel
  have hwrites : (e.deploy mem).2.writes = [⟨0xffffffffffffffff, 1⟩] := by
    rw [e.deploy_writes, if_pos hhead, hranges]
    decide
  refine ⟨?_, hwrites, fun h => ?_⟩
  · rw [e.deploy_accepts, hhead, hranges]
    decide
  · have := h 0xffffffffffffffff ⟨_, by rw [hwrites]; exact List.mem_singleton_self _, by decide⟩
    exact absurd this (by decide)

/-! ## The memory image of an executable -/

namespace ElfLoader

variable (e : ElfLoader)

def IsLoad (i : Nat) : Prop := i < e.ePhnum.toNat ∧ e.pType (e.phdrAt i) = PT_LOAD

def segment (i : Nat) : PhdrInfo := ⟨e.pVaddr (e.phdrAt i), e.pOffset (e.phdrAt i), e.pFilesz (e.phdrAt i)⟩

def memRange (i : Nat) : Range := ⟨e.pVaddr (e.phdrAt i), e.pMemsz (e.phdrAt i)⟩

/-- An ELF64 executable whose segments are not longer in the file than in memory, and lie apart from each other in friend
memory. -/
structure WellFormed : Prop where
  elf : e.isElf = true
  elf64 : e.isElf64 = true
  exec : e.isExecutable = true
  file_le : ∀ i, e.IsLoad i → e.pFilesz (e.phdrAt i) ≤ e.pMemsz (e.phdrAt i)
  region : ∀ i, e.IsLoad i → 0x100000000 ≤ (e.pVaddr (e.phdrAt i)).toNat ∧
    (e.pVaddr (e.phdrAt i)).toNat + (e.pMemsz (e.phdrAt i)).toNat ≤ 0x140000000
  apart : ∀ i j, e.IsLoad i → e.IsLoad j → i ≠ j → ∀ a, (e.memRange i).covers a = true → (e.memRange j).covers a = false

/-- The tables and the file bytes of the segments lie in the image. `Deploy` does not check it, and what it does with a
well-formed image does not depend on it. -/
structure Contained : Prop where
  phdrs : e.ePhoff.toNat + e.ePhnum.toNat * e.ePhentsize.toNat ≤ e.len.toNat
  shdrs : e.eShoff.toNat + e.eShnum.toNat * e.eShentsize.toNat ≤ e.len.toNat
  files : ∀ i, e.IsLoad i → (e.pOffset (e.phdrAt i)).toNat + (e.pFilesz (e.phdrAt i)).toNat ≤ e.len.toNat

/-- Every segment is in memory, its file bytes followed by zeros. -/
def Realised (mem : Bytes) : Prop :=
  ∀ i, e.IsLoad i →
    (∀ k < (e.pFilesz (e.phdrAt i)).toNat, mem (e.pVaddr (e.phdrAt i) + BitVec.ofNat 64 k) =
      e.addr (e.pOffset (e.phdrAt i) + BitVec.ofNat 64 k)) ∧
    ∀ k, (e.pFilesz (e.phdrAt i)).toNat ≤ k → k < (e.pMemsz (e.phdrAt i)).toNat →
      mem (e.pVaddr (e.phdrAt i) + BitVec.ofNat 64 k) = 0

/-- The byte that a successful `Deploy` puts at `a`, if it puts one there. -/
def put (a : BitVec 64) : Option (BitVec 8) :=
  if e.bss.any (fun i => i.range.covers a) = true then some 0
  else (e.loads.reverse.find? fun i => i.range.covers a).map fun i => e.addr (i.fileOffset + (a - i.vaddr))

/-- Every byte of every segment is put there. -/
def Supplied : Prop :=
  ∀ i, e.IsLoad i →
    (∀ k < (e.pFilesz (e.phdrAt i)).toNat, e.put (e.pVaddr (e.phdrAt i) + BitVec.ofNat 64 k) =
      some (e.addr (e.pOffset (e.phdrAt i) + BitVec.ofNat 64 k))) ∧
    ∀ k, (e.pFilesz (e.phdrAt i)).toNat ≤ k → k < (e.pMemsz (e.phdrAt i)).toNat →
      e.put (e.pVaddr (e.phdrAt i) + BitVec.ofNat 64 k) = some 0

/-- The sections to clear cover what the segments have in memory only. -/
def TailsCleared : Prop :=
  ∀ i, e.IsLoad i → ∀ k, (e.pFilesz (e.phdrAt i)).toNat ≤ k → k < (e.pMemsz (e.phdrAt i)).toNat →
    ∃ s ∈ e.bss, s.range.covers (e.pVaddr (e.phdrAt i) + BitVec.ofNat 64 k) = true

/-- They cover nothing of what the segments have in the file, zeros apart. -/
def DataSpared : Prop :=
  ∀ i, e.IsLoad i → ∀ k < (e.pFilesz (e.phdrAt i)).toNat, e.addr (e.pOffset (e.phdrAt i) + BitVec.ofNat 64 k) ≠ 0 →
    ∀ s ∈ e.bss, s.range.covers (e.pVaddr (e.phdrAt i) + BitVec.ofNat 64 k) = false

variable {e}

theorem PhdrsExact.loads_eq (h : e.PhdrsExact) :
    e.loads = (List.range e.ePhnum.toNat).filterMap fun i =>
      if e.pType (e.phdrAt i) = PT_LOAD then some (e.segment i) else none := by
  rw [loads, h.phdrs_eq, List.filterMap_map]
  rfl

theorem PhdrsExact.mem_loads_iff (h : e.PhdrsExact) {p : PhdrInfo} :
    p ∈ e.loads ↔ ∃ i, e.IsLoad i ∧ p = e.segment i := by
  rw [h.loads_eq, List.mem_filterMap]
  constructor
  · rintro ⟨i, hi, hp⟩
    split at hp
    · rename_i ht
      exact ⟨i, ⟨List.mem_range.mp hi, ht⟩, (Option.some.inj hp).symm⟩
    · cases hp
  · rintro ⟨i, hi, rfl⟩
    exact ⟨i, List.mem_range.mpr hi.1, if_pos hi.2⟩

theorem deploy_apply {mem : Bytes} (hok : (e.deploy mem).1 = true) (a : BitVec 64) :
    (e.deploy mem).2.mem a = (e.put a).getD (mem a) := by
  rw [e.deploy_mem mem hok, put]
  split
  · rfl
  · rfl

theorem put_of_forall (hok : ∀ mem, (e.deploy mem).1 = true) {a : BitVec 64} {b : BitVec 8}
    (h : ∀ mem, (e.deploy mem).2.mem a = b) : e.put a = some b := by
  have hb := h fun _ => b + 1
  rw [deploy_apply (hok _)] at hb
  cases hput : e.put a with
  | none =>
      rw [hput, Option.getD_none, BitVec.add_right_eq_self] at hb
      exact absurd hb (by decide)
  | some b' =>
      rw [hput, Option.getD_some] at hb
      rw [hb]

theorem realised_iff_supplied (e : ElfLoader) :
    (∀ mem, (e.deploy mem).1 = true → e.Realised (e.deploy mem).2.mem) ↔
      (e.headerOk = true → e.ranges.all accepts = true → e.Supplied) := by
  have hverdict (mem : Bytes) : (e.deploy mem).1 = true ↔ e.headerOk = true ∧ e.ranges.all accepts = true := by
    rw [e.deploy_accepts, Bool.and_eq_true]
  constructor
  · intro h hhead hranges i hi
    have hok (mem : Bytes) : (e.deploy mem).1 = true := (hverdict mem).mpr ⟨hhead, hranges⟩
    refine ⟨fun k hk => put_of_forall hok fun mem => ?_, fun k hk hk' => put_of_forall hok fun mem => ?_⟩
    · exact (h mem (hok mem) i hi).1 k hk
    · exact (h mem (hok mem) i hi).2 k hk hk'
  · intro h mem hok i hi
    obtain ⟨hhead, hranges⟩ := (hverdict mem).mp hok
    obtain ⟨hfile, htail⟩ := h hhead hranges i hi
    refine ⟨fun k hk => ?_, fun k hk hk' => ?_⟩
    · rw [deploy_apply hok, hfile k hk, Option.getD_some]
    · rw [deploy_apply hok, htail k hk hk', Option.getD_some]

theorem covers_segment {i k : Nat} (hk : k < 2 ^ 64) :
    (e.segment i).range.covers (e.pVaddr (e.phdrAt i) + BitVec.ofNat 64 k) = true ↔
      k < (e.pFilesz (e.phdrAt i)).toNat := by
  rw [Range.covers_iff_sub, PhdrInfo.range_base, PhdrInfo.range_size, segment, BitVec.add_comm,
    BitVec.add_sub_cancel, BitVec.toNat_ofNat, Nat.mod_eq_of_lt hk]

theorem covers_memRange {i k : Nat} (hk : k < (e.pMemsz (e.phdrAt i)).toNat) :
    (e.memRange i).covers (e.pVaddr (e.phdrAt i) + BitVec.ofNat 64 k) = true :=
  Range.covers_add (r := e.memRange i) hk

namespace WellFormed

theorem headerOk_iff (h : e.WellFormed) : e.headerOk = true ↔ e.isOsabiSysv = true ∨ e.isOsabiGnu = true := by
  rw [headerOk, h.elf, h.elf64, h.exec]
  simp

theorem memRange_covers (h : e.WellFormed) {i : Nat} (hi : e.IsLoad i) {a : BitVec 64}
    (hc : (e.segment i).range.covers a = true) : (e.memRange i).covers a = true := by
  have hle := h.file_le i hi
  rw [BitVec.le_def] at hle
  rw [Range.covers_iff_sub] at hc ⊢
  exact lt_of_lt_of_le hc hle

section Exact
variable (h : e.WellFormed) (hp : e.PhdrsExact)
include h hp

/-- The segments pass `CheckMemoryRegion`, so that the sections decide. -/
theorem ranges_accepted_iff : e.ranges.all accepts = true ↔ ∀ s ∈ e.bss, accepts s.range = true := by
  have hloads : (e.loads.map PhdrInfo.range).all accepts = true := by
    rw [List.all_map, List.all_eq_true]
    intro p hmem
    obtain ⟨i, hi, rfl⟩ := hp.mem_loads_iff.mp hmem
    have hle := h.file_le i hi
    have hreg := h.region i hi
    rw [BitVec.le_def] at hle
    have hend : (e.segment i).range.base.toNat + (e.segment i).range.size.toNat ≤ 0x140000000 := by
      simp only [PhdrInfo.range_base, PhdrInfo.range_size, segment]
      omega
    rw [Function.comp_apply, accepts_iff_of_not_overflows (by unfold Range.Overflows; omega)]
    exact ⟨hreg.1, hend⟩
  rw [ranges, List.all_append, hloads, Bool.true_and, List.all_map, List.all_eq_true]
  rfl

/-- A byte of segment `i` is no other segment's file byte. -/
theorem load_of_covers {i : Nat} (hi : e.IsLoad i) {a : BitVec 64} (ha : (e.memRange i).covers a = true)
    {p : PhdrInfo} (hmem : p ∈ e.loads) (hc : p.range.covers a = true) : p = e.segment i := by
  obtain ⟨j, hj, rfl⟩ := hp.mem_loads_iff.mp hmem
  by_cases hij : j = i
  · rw [hij]
  · rw [h.apart j i hj hi hij a (h.memRange_covers hj hc)] at ha
    cases ha

theorem find_file {i : Nat} (hi : e.IsLoad i) {a : BitVec 64} (hc : (e.segment i).range.covers a = true) :
    (e.loads.reverse.find? fun p => p.range.covers a) = some (e.segment i) := by
  cases hf : e.loads.reverse.find? fun p => p.range.covers a with
  | none =>
      rw [List.find?_eq_none] at hf
      exact absurd hc (hf _ (List.mem_reverse.mpr (hp.mem_loads_iff.mpr ⟨i, hi, rfl⟩)))
  | some p =>
      have hpc := List.find?_some hf
      rw [h.load_of_covers hp hi (h.memRange_covers hi hc) (List.mem_reverse.mp (List.mem_of_find?_eq_some hf)) hpc]

theorem find_tail {i : Nat} (hi : e.IsLoad i) {a : BitVec 64} (ha : (e.memRange i).covers a = true)
    (hc : (e.segment i).range.covers a = false) : (e.loads.reverse.find? fun p => p.range.covers a) = none := by
  rw [List.find?_eq_none]
  intro p hmem hpc
  rw [h.load_of_covers hp hi ha (List.mem_reverse.mp hmem) hpc, hc] at hpc
  cases hpc

/-- A file byte is put there unless a section clears it. -/
theorem put_file_iff {i k : Nat} (hi : e.IsLoad i) (hk : k < (e.pFilesz (e.phdrAt i)).toNat) :
    e.put (e.pVaddr (e.phdrAt i) + BitVec.ofNat 64 k) = some (e.addr (e.pOffset (e.phdrAt i) + BitVec.ofNat 64 k)) ↔
      (e.addr (e.pOffset (e.phdrAt i) + BitVec.ofNat 64 k) ≠ 0 →
        ∀ s ∈ e.bss, s.range.covers (e.pVaddr (e.phdrAt i) + BitVec.ofNat 64 k) = false) := by
  have hlt := (e.pFilesz (e.phdrAt i)).isLt
  rw [put]
  split
  · rename_i hc
    obtain ⟨s, hs, hc⟩ := List.any_eq_true.mp hc
    constructor
    · intro heq hne
      exact absurd (Option.some.inj heq).symm hne
    · intro hspared
      by_contra hne
      rw [hspared (fun h0 => hne (congrArg some h0.symm)) s hs] at hc
      cases hc
  · rename_i hno
    rw [Bool.not_eq_true, List.any_eq_false] at hno
    refine iff_of_true ?_ fun _ s hs => Bool.not_eq_true _ ▸ hno s hs
    rw [h.find_file hp hi ((covers_segment (by omega)).mpr hk), Option.map_some, segment, BitVec.add_comm (e.pVaddr _),
      BitVec.add_sub_cancel]

/-- A byte that a segment has in memory only is put there iff a section clears it. -/
theorem put_tail_iff {i k : Nat} (hi : e.IsLoad i) (hk : (e.pFilesz (e.phdrAt i)).toNat ≤ k)
    (hk' : k < (e.pMemsz (e.phdrAt i)).toNat) :
    e.put (e.pVaddr (e.phdrAt i) + BitVec.ofNat 64 k) = some 0 ↔
      ∃ s ∈ e.bss, s.range.covers (e.pVaddr (e.phdrAt i) + BitVec.ofNat 64 k) = true := by
  have hlt := (e.pMemsz (e.phdrAt i)).isLt
  have hfile : (e.segment i).range.covers (e.pVaddr (e.phdrAt i) + BitVec.ofNat 64 k) = false := by
    rw [← Bool.not_eq_true, covers_segment (by omega)]
    omega
  rw [put, ← List.any_eq_true]
  split
  · rename_i hc
    exact iff_of_true rfl hc
  · rename_i hno
    rw [h.find_tail hp hi (covers_memRange hk') hfile, Option.map_none]
    exact iff_of_false nofun hno

theorem supplied_iff : e.Supplied ↔ e.TailsCleared ∧ e.DataSpared := by
  constructor
  · intro hs
    exact ⟨fun i hi k hk hk' => (h.put_tail_iff hp hi hk hk').mp ((hs i hi).2 k hk hk'),
      fun i hi k hk => (h.put_file_iff hp hi hk).mp ((hs i hi).1 k hk)⟩
  · rintro ⟨htails, hdata⟩ i hi
    exact ⟨fun k hk => (h.put_file_iff hp hi hk).mpr (hdata i hi k hk),
      fun k hk hk' => (h.put_tail_iff hp hi hk hk').mpr (htails i hi k hk hk')⟩

end Exact

end WellFormed

/-- **When `Deploy` realises the memory image.** For a well-formed executable, a successful `Deploy` leaves every
segment in memory with zeros after its file bytes, whatever was there before, iff it never succeeds or puts every byte of
the segments there. If it finds the entries of the program header table, this is so iff the allocated `SHT_NOBITS`
sections cover the segments' tails and none of their non-zero file bytes. -/
theorem deploy_realises_iff (e : ElfLoader) (h : e.WellFormed) :
    ((∀ mem, (e.deploy mem).1 = true → e.Realised (e.deploy mem).2.mem) ↔
      ((e.isOsabiSysv = true ∨ e.isOsabiGnu = true) → e.ranges.all accepts = true → e.Supplied)) ∧
    (e.PhdrsExact → ((∀ mem, (e.deploy mem).1 = true → e.Realised (e.deploy mem).2.mem) ↔
      ((e.isOsabiSysv = true ∨ e.isOsabiGnu = true) → (∀ s ∈ e.bss, accepts s.range = true) →
        e.TailsCleared ∧ e.DataSpared))) := by
  rw [e.realised_iff_supplied, h.headerOk_iff]
  refine ⟨Iff.rfl, fun hp => ?_⟩
  rw [h.ranges_accepted_iff hp, h.supplied_iff hp]

/-- A segment of 16 bytes in the file and 32 in memory, with a `.bss` section for the rest. -/
def bssImage : ElfLoader :=
  ofBytes (ehdrBytes 1 1 ++ loadBytes 64 0x100001000 16 32 ++ nobitsBytes 0x100001010 16)

/-- The same executable, stripped of its section headers. -/
def strippedImage : ElfLoader := ofBytes (ehdrBytes 1 0 ++ loadBytes 64 0x100001000 16 32)

theorem wellFormed_single {e : ElfLoader} (hn : e.ePhnum = 1) (helf : (e.isElf && e.isElf64 && e.isExecutable) = true)
    (hseg : e.pFilesz (e.phdrAt 0) ≤ e.pMemsz (e.phdrAt 0) ∧ 0x100000000 ≤ (e.pVaddr (e.phdrAt 0)).toNat ∧
      (e.pVaddr (e.phdrAt 0)).toNat + (e.pMemsz (e.phdrAt 0)).toNat ≤ 0x140000000) :
    e.WellFormed ∧ ∀ i, e.IsLoad i → i = 0 := by
  have hzero : ∀ i, e.IsLoad i → i = 0 := by
    intro i hi
    have := hi.1
    rw [hn] at this
    exact Nat.lt_one_iff.mp this
  rw [Bool.and_eq_true, Bool.and_eq_true] at helf
  refine ⟨⟨helf.1.1, helf.1.2, helf.2, ?_, ?_, ?_⟩, hzero⟩
  · intro i hi
    rw [hzero i hi]
    exact hseg.1
  · intro i hi
    rw [hzero i hi]
    exact hseg.2
  · intro i j hi hj hij
    exact absurd ((hzero i hi).trans (hzero j hj).symm) hij

/-- With its `.bss` section the executable is realised, over a memory full of other bytes. -/
theorem bss_cleared :
    let mem : Bytes := fun _ => 0xff
    (bssImage.deploy mem).1 = true ∧ bssImage.Realised (bssImage.deploy mem).2.mem := by
  intro mem
  obtain ⟨hwf, hzero⟩ := wellFormed_single (e := bssImage) (by decide +kernel) (by decide +kernel) (by decide +kernel)
  have hexact : bssImage.PhdrsExact := .inr (by decide +kernel)
  have hbss : bssImage.bss = [⟨0x100001010, 16⟩] := by decide +kernel
  have hvaddr : bssImage.pVaddr (bssImage.phdrAt 0) = 0x100001000 := by decide +kernel
  have hfile : bssImage.pFilesz (bssImage.phdrAt 0) = 16 := by decide +kernel
  have hmemsz : bssImage.pMemsz (bssImage.phdrAt 0) = 32 := by decide +kernel
  have hok : (bssImage.deploy mem).1 = true := by
    rw [deploy_accepts]
    decide +kernel
  refine ⟨hok, ((deploy_realises_iff bssImage hwf).2 hexact).mpr (fun _ _ => ⟨?_, ?_⟩) mem hok⟩
  · intro i hi k hk hk'
    rw [hzero i hi, hfile] at hk
    rw [hzero i hi, hmemsz] at hk'
    rw [hzero i hi, hvaddr, hbss]
    have hcov : ∀ k < 32, 16 ≤ k →
        (SectionInfo.range ⟨0x100001010, 16⟩).covers (0x100001000 + BitVec.ofNat 64 k) = true := by decide
    exact ⟨_, List.mem_singleton_self _, hcov k hk' hk⟩
  · intro i hi k hk _ s hs
    rw [hzero i hi, hfile] at hk
    rw [hbss, List.mem_singleton] at hs
    rw [hzero i hi, hvaddr, hs]
    have hcov : ∀ k < 16,
        (SectionInfo.range ⟨0x100001010, 16⟩).covers (0x100001000 + BitVec.ofNat 64 k) = false := by decide
    exact hcov k hk

/-- Stripped of its section headers it is not: nothing is cleared, and the 16 bytes after the file bytes keep what the
memory held. -/
theorem stripped_not_cleared :
    let mem : Bytes := fun _ => 0xff
    (strippedImage.WellFormed ∧ strippedImage.Contained ∧ strippedImage.PhdrsExact) ∧
      (strippedImage.deploy mem).1 = true ∧ (strippedImage.deploy mem).2.mem 0x100001010 = 0xff ∧
      ¬ strippedImage.Realised (strippedImage.deploy mem).2.mem := by
  intro mem
  obtain ⟨hwf, hzero⟩ := wellFormed_single (e := strippedImage) (by decide +kernel) (by decide +kernel)
    (by decide +kernel)
  have hcontained : strippedImage.Contained := by
    refine ⟨by decide +kernel, by decide +kernel, fun i hi => ?_⟩
    rw [hzero i hi]
    decide +kernel
  have hbss : strippedImage.bss = [] := by decide +kernel
  have hvaddr : strippedImage.pVaddr (strippedImage.phdrAt 0) = 0x100001000 := by decide +kernel
  have hok : (strippedImage.deploy mem).1 = true := by
    rw [deploy_accepts]
    decide +kernel
  have hloads : strippedImage.loads = [⟨0x100001000, 64, 16⟩] := by decide +kernel
  have hkept : (strippedImage.deploy mem).2.mem 0x100001010 = 0xff := by
    rw [strippedImage.deploy_mem mem hok, hbss, hloads]
    rfl
  refine ⟨⟨hwf, hcontained, .inr (by decide +kernel)⟩, hok, hkept, fun h => ?_⟩
  have h0 := (h 0 ⟨by decide +kernel, by decide +kernel⟩).2 16 (by decide +kernel) (by decide +kernel)
  rw [hvaddr] at h0
  exact absurd (h0.symm.trans hkept) (by decide)

end ElfLoader

end Toshokan.Hakase
