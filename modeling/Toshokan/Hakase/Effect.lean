import Mathlib.Logic.Equiv.Basic
import Toshokan.Hakase.Deploy

/-!
# The memory that `Deploy` leaves, entry by entry

For images whose tables `Deploy` walks completely and whose ranges do not wrap around.

* `Walkable` : such images; `Effect` : each byte of the memory afterwards, by the indices of the table entries;
* `Reordering` : an image with the entries of its tables in another order; `deploy_effect` : the verdict, the effect, and
  that neither depends on the order of section headers, nor on that of program headers for segments that lie apart;
* `reordered_source` : the segments' file bytes must not be in the tables for that.
-/

namespace Toshokan.Hakase
open Lib (Bytes Range)

namespace ElfLoader

variable (e : ElfLoader)

def IsBss (i : Nat) : Prop :=
  i < e.eShnum.toNat ∧ e.shType (e.shdrAt i) = SHT_NOBITS ∧ e.shFlags (e.shdrAt i) &&& SHF_ALLOC ≠ 0

def bssSection (i : Nat) : SectionInfo := ⟨e.shAddr (e.shdrAt i), e.shSize (e.shdrAt i)⟩

/-- The tables are exact and no range asked for wraps around. -/
structure Walkable : Prop where
  phdrs : e.PhdrsExact
  shdrs : e.ShdrsExact
  load : ∀ i, e.IsLoad i → ¬ (e.segment i).range.Overflows
  bss : ∀ i, e.IsBss i → ¬ (e.bssSection i).range.Overflows

/-- Byte by byte, what becomes of `mem`: 0 in a section, else the byte of the last segment that has it, else as before. -/
structure Effect (mem mem' : Bytes) : Prop where
  cleared : ∀ a i, e.IsBss i → (e.bssSection i).range.Contains a → mem' a = 0
  loaded : ∀ a i, (∀ j, e.IsBss j → ¬ (e.bssSection j).range.Contains a) → e.IsLoad i →
    (e.segment i).range.Contains a → (∀ j, i < j → e.IsLoad j → ¬ (e.segment j).range.Contains a) →
    mem' a = e.addr ((e.segment i).fileOffset + (a - (e.segment i).vaddr))
  kept : ∀ a, (∀ j, e.IsBss j → ¬ (e.bssSection j).range.Contains a) →
    (∀ j, e.IsLoad j → ¬ (e.segment j).range.Contains a) → mem' a = mem a

variable {e}

theorem ShdrsExact.mem_bss_iff (h : e.ShdrsExact) {s : SectionInfo} :
    s ∈ e.bss ↔ ∃ i, e.IsBss i ∧ s = e.bssSection i := by
  rw [bss, h.shdrs_eq, List.filterMap_map, List.mem_filterMap]
  constructor
  · rintro ⟨i, hi, hs⟩
    rw [Function.comp_apply, getInfoIfBss] at hs
    split at hs
    · rename_i hb
      exact ⟨i, ⟨List.mem_range.mp hi, hb⟩, (Option.some.inj hs).symm⟩
    · cases hs
  · rintro ⟨i, hi, rfl⟩
    exact ⟨i, List.mem_range.mpr hi.1, if_pos hi.2⟩

namespace Walkable

/-- From the lists that a concrete image evaluates to. -/
theorem of_lists (hp : e.PhdrsExact) (hs : e.ShdrsExact) (hl : ∀ p ∈ e.loads, ¬ p.range.Overflows)
    (hb : ∀ s ∈ e.bss, ¬ s.range.Overflows) : e.Walkable :=
  ⟨hp, hs, fun i hi => hl _ (hp.mem_loads_iff.mpr ⟨i, hi, rfl⟩), fun i hi => hb _ (hs.mem_bss_iff.mpr ⟨i, hi, rfl⟩)⟩

theorem covers_load (h : e.Walkable) {i : Nat} (hi : e.IsLoad i) {a : BitVec 64} :
    (e.segment i).range.covers a = true ↔ (e.segment i).range.Contains a :=
  Range.covers_iff_contains (h.load i hi)

theorem covers_bss (h : e.Walkable) {i : Nat} (hi : e.IsBss i) {a : BitVec 64} :
    (e.bssSection i).range.covers a = true ↔ (e.bssSection i).range.Contains a :=
  Range.covers_iff_contains (h.bss i hi)

theorem any_bss_iff (h : e.Walkable) {a : BitVec 64} :
    e.bss.any (fun s => s.range.covers a) = true ↔ ∃ i, e.IsBss i ∧ (e.bssSection i).range.Contains a := by
  rw [List.any_eq_true]
  constructor
  · rintro ⟨s, hs, hc⟩
    obtain ⟨i, hi, rfl⟩ := h.shdrs.mem_bss_iff.mp hs
    exact ⟨i, hi, (h.covers_bss hi).mp hc⟩
  · rintro ⟨i, hi, hc⟩
    exact ⟨_, h.shdrs.mem_bss_iff.mpr ⟨i, hi, rfl⟩, (h.covers_bss hi).mpr hc⟩

theorem find_last (h : e.Walkable) {i : Nat} (hi : e.IsLoad i) {a : BitVec 64} (hc : (e.segment i).range.Contains a)
    (hlast : ∀ j, i < j → e.IsLoad j → ¬ (e.segment j).range.Contains a) :
    (e.loads.reverse.find? fun p => p.range.covers a) = some (e.segment i) := by
  rw [h.phdrs.loads_eq]
  refine Lib.find?_reverse_of_last hi.1 (if_pos hi.2) ?_ fun j hij hj p hp => ?_
  · exact (h.covers_load hi).mpr hc
  · split at hp
    · rename_i ht
      cases hp
      rw [← Bool.not_eq_true, h.covers_load ⟨hj, ht⟩]
      exact hlast j hij ⟨hj, ht⟩
    · cases hp

theorem find_none (h : e.Walkable) {a : BitVec 64} (hno : ∀ j, e.IsLoad j → ¬ (e.segment j).range.Contains a) :
    (e.loads.reverse.find? fun p => p.range.covers a) = none := by
  rw [List.find?_eq_none]
  intro p hp hc
  obtain ⟨i, hi, rfl⟩ := h.phdrs.mem_loads_iff.mp (List.mem_reverse.mp hp)
  exact hno i hi ((h.covers_load hi).mp hc)

theorem deploy_iff (h : e.Walkable) (mem : Bytes) :
    (e.deploy mem).1 = true ↔ e.headerOk = true ∧
      (∀ i, e.IsLoad i → checkMemoryRegion (e.segment i).vaddr (e.segment i).size = true) ∧
      ∀ i, e.IsBss i → checkMemoryRegion (e.bssSection i).vaddr (e.bssSection i).size = true := by
  rw [e.deploy_accepts, Bool.and_eq_true, ranges, List.all_append, Bool.and_eq_true, List.all_map, List.all_map,
    List.all_eq_true, List.all_eq_true]
  refine and_congr_right fun _ => and_congr ?_ ?_
  · constructor
    · intro hall i hi
      exact hall _ (h.phdrs.mem_loads_iff.mpr ⟨i, hi, rfl⟩)
    · intro hall p hp
      obtain ⟨i, hi, rfl⟩ := h.phdrs.mem_loads_iff.mp hp
      exact hall i hi
  · constructor
    · intro hall i hi
      exact hall _ (h.shdrs.mem_bss_iff.mpr ⟨i, hi, rfl⟩)
    · intro hall s hs
      obtain ⟨i, hi, rfl⟩ := h.shdrs.mem_bss_iff.mp hs
      exact hall i hi

theorem effect (h : e.Walkable) {mem : Bytes} (hok : (e.deploy mem).1 = true) : e.Effect mem (e.deploy mem).2.mem := by
  refine ⟨fun a i hi hc => ?_, fun a i hno hi hc hlast => ?_, fun a hno hnone => ?_⟩
  · rw [e.deploy_mem mem hok, if_pos (h.any_bss_iff.mpr ⟨i, hi, hc⟩)]
  · rw [e.deploy_mem mem hok, if_neg, h.find_last hi hc hlast]
    · rfl
    · rw [h.any_bss_iff]
      exact fun ⟨j, hj, hcj⟩ => hno j hj hcj
  · rw [e.deploy_mem mem hok, if_neg, h.find_none hnone]
    · rfl
    · rw [h.any_bss_iff]
      exact fun ⟨j, hj, hcj⟩ => hno j hj hcj

end Walkable

theorem exists_last {a : BitVec 64} (h : ∃ i, e.IsLoad i ∧ (e.segment i).range.Contains a) :
    ∃ i, e.IsLoad i ∧ (e.segment i).range.Contains a ∧ ∀ j, i < j → e.IsLoad j → ¬ (e.segment j).range.Contains a := by
  classical
  obtain ⟨k, hk, hc⟩ := h
  obtain ⟨hi, hci⟩ :=
    Nat.findGreatest_spec (P := fun i => e.IsLoad i ∧ (e.segment i).range.Contains a) hk.1.le ⟨hk, hc⟩
  exact ⟨_, hi, hci, fun j hij hj hcj => Nat.findGreatest_is_greatest hij hj.1.le ⟨hj, hcj⟩⟩

theorem Effect.unique {mem m₁ m₂ : Bytes} (h₁ : e.Effect mem m₁) (h₂ : e.Effect mem m₂) : m₁ = m₂ := by
  funext a
  by_cases hb : ∃ i, e.IsBss i ∧ (e.bssSection i).range.Contains a
  · obtain ⟨i, hi, hc⟩ := hb
    rw [h₁.cleared a i hi hc, h₂.cleared a i hi hc]
  · have hno : ∀ j, e.IsBss j → ¬ (e.bssSection j).range.Contains a := fun j hj hc => hb ⟨j, hj, hc⟩
    by_cases hl : ∃ i, e.IsLoad i ∧ (e.segment i).range.Contains a
    · obtain ⟨i, hi, hc, hlast⟩ := exists_last hl
      rw [h₁.loaded a i hno hi hc hlast, h₂.loaded a i hno hi hc hlast]
    · have hnone : ∀ j, e.IsLoad j → ¬ (e.segment j).range.Contains a := fun j hj hc => hl ⟨j, hj, hc⟩
      rw [h₁.kept a hno hnone, h₂.kept a hno hnone]

/-! ## The order of the entries -/

/-- `e'` has the header of `e`, its program headers and section headers in another order, and the file bytes of its
segments. Unless the program headers stay in order, the file ranges of the segments are apart. -/
structure Reordering (e e' : ElfLoader) where
  phdrPerm : Equiv.Perm Nat
  phdr_lt : ∀ i, phdrPerm i < e.ePhnum.toNat ↔ i < e.ePhnum.toNat
  shdrPerm : Equiv.Perm Nat
  shdr_lt : ∀ i, shdrPerm i < e.eShnum.toNat ↔ i < e.eShnum.toNat
  ehdr : Bytes.Agree e'.addr e.addr 0 0 64
  phdr : ∀ i < e.ePhnum.toNat, Bytes.Agree e'.addr e.addr (e.phdrAt i).raw (e.phdrAt (phdrPerm i)).raw 56
  shdr : ∀ i < e.eShnum.toNat, Bytes.Agree e'.addr e.addr (e.shdrAt i).raw (e.shdrAt (shdrPerm i)).raw 64
  source : ∀ i, e.IsLoad i →
    Bytes.Agree e'.addr e.addr (e.segment i).fileOffset (e.segment i).fileOffset (e.segment i).size.toNat
  apart : phdrPerm = Equiv.refl Nat ∨ ∀ i j, e.IsLoad i → e.IsLoad j → i ≠ j → ∀ a,
    (e.segment i).range.Contains a → ¬ (e.segment j).range.Contains a

namespace Reordering

variable {e e' : ElfLoader} (R : Reordering e e')
include R

theorem byte_eq (o : BitVec 64) (ho : o.toNat + 1 ≤ 64) : e'.addr o = e.addr o :=
  (R.ehdr.from_zero o ho).first Nat.one_pos

theorem read16_eq (o : BitVec 64) (ho : o.toNat + 2 ≤ 64) : e'.addr.read16 o = e.addr.read16 o :=
  (R.ehdr.from_zero o ho).read16

theorem read64_eq (o : BitVec 64) (ho : o.toNat + 8 ≤ 64) : e'.addr.read64 o = e.addr.read64 o :=
  (R.ehdr.from_zero o ho).read64

theorem headerOk_eq : e'.headerOk = e.headerOk := by
  unfold headerOk isElf isElf64 isOsabiSysv isOsabiGnu isExecutable eIdent eType
  rw [R.byte_eq 0 (by decide), R.byte_eq 1 (by decide), R.byte_eq 2 (by decide), R.byte_eq 3 (by decide),
    R.byte_eq EI_CLASS (by decide), R.byte_eq EI_OSABI (by decide), R.read16_eq 16 (by decide)]

theorem ePhnum_eq : e'.ePhnum = e.ePhnum := R.read16_eq 56 (by decide)

theorem eShnum_eq : e'.eShnum = e.eShnum := R.read16_eq 60 (by decide)

theorem phdrAt_eq : e'.phdrAt = e.phdrAt := by
  funext i
  unfold phdrAt ePhoff ePhentsize
  rw [R.read64_eq 32 (by decide), R.read16_eq 54 (by decide)]

theorem shdrAt_eq : e'.shdrAt = e.shdrAt := by
  funext i
  unfold shdrAt eShoff eShentsize
  rw [R.read64_eq 40 (by decide), R.read16_eq 58 (by decide)]

theorem phdrsExact_iff : e'.PhdrsExact ↔ e.PhdrsExact := by
  unfold PhdrsExact ePhoff ePhentsize
  rw [R.ePhnum_eq, R.read64_eq 32 (by decide), R.read16_eq 54 (by decide)]

theorem shdrsExact_iff : e'.ShdrsExact ↔ e.ShdrsExact := by
  unfold ShdrsExact eShoff eShentsize
  rw [R.eShnum_eq, R.read64_eq 40 (by decide), R.read16_eq 58 (by decide)]

theorem segment_eq {i : Nat} (hi : i < e.ePhnum.toNat) : e'.segment i = e.segment (R.phdrPerm i) := by
  have h := R.phdr i hi
  unfold segment pVaddr pOffset pFilesz
  rw [R.phdrAt_eq, (h.shift 8 (by decide)).read64, (h.shift 16 (by decide)).read64, (h.shift 32 (by decide)).read64]

theorem isLoad_iff {i : Nat} : e'.IsLoad i ↔ e.IsLoad (R.phdrPerm i) := by
  unfold IsLoad pType
  rw [R.ePhnum_eq, R.phdr_lt, R.phdrAt_eq]
  refine and_congr_right fun hi => ?_
  rw [((R.phdr i hi).mono (l := 4) (by decide)).read32]

theorem bssSection_eq {i : Nat} (hi : i < e.eShnum.toNat) : e'.bssSection i = e.bssSection (R.shdrPerm i) := by
  have h := R.shdr i hi
  unfold bssSection shAddr shSize
  rw [R.shdrAt_eq, (h.shift 16 (by decide)).read64, (h.shift 32 (by decide)).read64]

theorem isBss_iff {i : Nat} : e'.IsBss i ↔ e.IsBss (R.shdrPerm i) := by
  unfold IsBss shType shFlags
  rw [R.eShnum_eq, R.shdr_lt, R.shdrAt_eq]
  refine and_congr_right fun hi => ?_
  have h := R.shdr i hi
  rw [(h.shift 4 (l := 4) (by decide)).read32, (h.shift 8 (by decide)).read64]

theorem walkable (h : e.Walkable) : e'.Walkable := by
  refine ⟨R.phdrsExact_iff.mpr h.phdrs, R.shdrsExact_iff.mpr h.shdrs, fun i hi => ?_, fun i hi => ?_⟩
  · have hi' := R.isLoad_iff.mp hi
    rw [R.segment_eq ((R.phdr_lt i).mp hi'.1)]
    exact h.load _ hi'
  · have hi' := R.isBss_iff.mp hi
    rw [R.bssSection_eq ((R.shdr_lt i).mp hi'.1)]
    exact h.bss _ hi'

theorem load_of {i : Nat} (hi : e.IsLoad i) : ∃ j, R.phdrPerm j = i ∧ e'.IsLoad j ∧ e'.segment j = e.segment i := by
  obtain ⟨j, rfl⟩ := R.phdrPerm.surjective i
  exact ⟨j, rfl, R.isLoad_iff.mpr hi, R.segment_eq ((R.phdr_lt j).mp hi.1)⟩

theorem bss_of {i : Nat} (hi : e.IsBss i) : ∃ j, e'.IsBss j ∧ e'.bssSection j = e.bssSection i := by
  obtain ⟨j, rfl⟩ := R.shdrPerm.surjective i
  exact ⟨j, R.isBss_iff.mpr hi, R.bssSection_eq ((R.shdr_lt j).mp hi.1)⟩

theorem load_to {j : Nat} (hj : e'.IsLoad j) : e.IsLoad (R.phdrPerm j) ∧ e'.segment j = e.segment (R.phdrPerm j) := by
  have hi := R.isLoad_iff.mp hj
  exact ⟨hi, R.segment_eq ((R.phdr_lt j).mp hi.1)⟩

theorem bss_to {j : Nat} (hj : e'.IsBss j) : e.IsBss (R.shdrPerm j) ∧ e'.bssSection j = e.bssSection (R.shdrPerm j) := by
  have hi := R.isBss_iff.mp hj
  exact ⟨hi, R.bssSection_eq ((R.shdr_lt j).mp hi.1)⟩

theorem verdict (h : e.Walkable) (mem : Bytes) : (e'.deploy mem).1 = (e.deploy mem).1 := by
  rw [Bool.eq_iff_iff, h.deploy_iff, (R.walkable h).deploy_iff, R.headerOk_eq]
  refine and_congr_right fun _ => and_congr ⟨fun hall i hi => ?_, fun hall j hj => ?_⟩
    ⟨fun hall i hi => ?_, fun hall j hj => ?_⟩
  · obtain ⟨j, -, hj, heq⟩ := R.load_of hi
    rw [← heq]
    exact hall j hj
  · obtain ⟨hi, heq⟩ := R.load_to hj
    rw [heq]
    exact hall _ hi
  · obtain ⟨j, hj, heq⟩ := R.bss_of hi
    rw [← heq]
    exact hall j hj
  · obtain ⟨hi, heq⟩ := R.bss_to hj
    rw [heq]
    exact hall _ hi

/-- The last segment that has a byte is the same one in both orders. -/
theorem last_of {i j : Nat} (hij : R.phdrPerm j = i) (hi : e.IsLoad i) {a : BitVec 64}
    (hc : (e.segment i).range.Contains a) (hlast : ∀ k, i < k → e.IsLoad k → ¬ (e.segment k).range.Contains a)
    {k : Nat} (hk : j < k) (hload : e'.IsLoad k) : ¬ (e'.segment k).range.Contains a := by
  obtain ⟨hload', heq⟩ := R.load_to hload
  rw [heq]
  rcases R.apart with hrefl | hapart
  · rw [hrefl] at hij hload' ⊢
    exact hlast k (hij ▸ hk) hload'
  · refine hapart i _ hi hload' (fun h => ?_) a hc
    have hkj : k = j := R.phdrPerm.injective (h.symm.trans hij.symm)
    omega

theorem effect {mem mem' : Bytes} (h : e.Walkable) (h' : e'.Effect mem mem') : e.Effect mem mem' := by
  have hbss {a : BitVec 64} (hno : ∀ j, e.IsBss j → ¬ (e.bssSection j).range.Contains a) :
      ∀ j, e'.IsBss j → ¬ (e'.bssSection j).range.Contains a := by
    intro j hj
    obtain ⟨hi, heq⟩ := R.bss_to hj
    rw [heq]
    exact hno _ hi
  refine ⟨fun a i hi hc => ?_, fun a i hno hi hc hlast => ?_, fun a hno hnone => ?_⟩
  · obtain ⟨j, hj, heq⟩ := R.bss_of hi
    exact h'.cleared a j hj (heq ▸ hc)
  · obtain ⟨j, hij, hj, heq⟩ := R.load_of hi
    rw [h'.loaded a j (hbss hno) hj (heq ▸ hc) fun k hk hload => R.last_of hij hi hc hlast hk hload, heq]
    apply R.source i hi
    exact Range.covers_iff_sub.mp ((h.covers_load hi).mpr hc)
  · apply h'.kept a (hbss hno)
    intro j hj
    obtain ⟨hi, heq⟩ := R.load_to hj
    rw [heq]
    exact hnone _ hi

end Reordering

/-- **The effect of `Deploy`.** For an image whose tables are exact and whose ranges do not wrap around: it succeeds iff
the header checks pass and every range is accepted, it leaves the `Effect`, and an image with the entries of the tables in
another order gives the same verdict and the same memory. -/
theorem deploy_effect (e : ElfLoader) (h : e.Walkable) (mem : Bytes) :
    ((e.deploy mem).1 = true ↔ e.headerOk = true ∧
      (∀ i, e.IsLoad i → checkMemoryRegion (e.segment i).vaddr (e.segment i).size = true) ∧
      ∀ i, e.IsBss i → checkMemoryRegion (e.bssSection i).vaddr (e.bssSection i).size = true) ∧
    ((e.deploy mem).1 = true → e.Effect mem (e.deploy mem).2.mem) ∧
    ∀ e', Reordering e e' → (e'.deploy mem).1 = (e.deploy mem).1 ∧
      ((e.deploy mem).1 = true → (e'.deploy mem).2.mem = (e.deploy mem).2.mem) := by
  refine ⟨h.deploy_iff mem, h.effect, fun e' R => ⟨R.verdict h mem, fun hok => ?_⟩⟩
  have hok' : (e'.deploy mem).1 = true := (R.verdict h mem).trans hok
  exact (R.effect h ((R.walkable h).effect hok')).unique (h.effect hok)

/-! ### Two entries in either order -/

/-- The two entries of both tables swapped. -/
def Reordering.swap {e e' : ElfLoader} (hp : e.ePhnum.toNat = 2) (hs : e.eShnum.toNat = 2)
    (ehdr : ∀ k < 64, e'.addr (0 + BitVec.ofNat 64 k) = e.addr (0 + BitVec.ofNat 64 k))
    (phdr : ∀ i < 2, ∀ k < 56,
      e'.addr ((e.phdrAt i).raw + BitVec.ofNat 64 k) = e.addr ((e.phdrAt (1 - i)).raw + BitVec.ofNat 64 k))
    (shdr : ∀ i < 2, ∀ k < 64,
      e'.addr ((e.shdrAt i).raw + BitVec.ofNat 64 k) = e.addr ((e.shdrAt (1 - i)).raw + BitVec.ofNat 64 k))
    (source : ∀ i < 2, ∀ k < (e.segment i).size.toNat,
      e'.addr ((e.segment i).fileOffset + BitVec.ofNat 64 k) = e.addr ((e.segment i).fileOffset + BitVec.ofNat 64 k))
    (apart : (e.segment 0).vaddr.toNat + (e.segment 0).size.toNat ≤ (e.segment 1).vaddr.toNat) : Reordering e e' :=
  have hlt : ∀ i, Equiv.swap 0 1 i < 2 ↔ i < 2 := by
    intro i
    rw [Equiv.swap_apply_def]
    split
    · omega
    · split <;> omega
  have hval : ∀ i < 2, Equiv.swap 0 1 i = 1 - i := by decide
  { phdrPerm := Equiv.swap 0 1
    phdr_lt := by rw [hp]; exact hlt
    shdrPerm := Equiv.swap 0 1
    shdr_lt := by rw [hs]; exact hlt
    ehdr := .of_nat ehdr
    phdr := by
      intro i hi
      rw [hp] at hi
      rw [hval i hi]
      exact .of_nat (phdr i hi)
    shdr := by
      intro i hi
      rw [hs] at hi
      rw [hval i hi]
      exact .of_nat (shdr i hi)
    source := fun i hi => .of_nat (source i (hp ▸ hi.1))
    apart := by
      right
      intro i j hi hj hij a hci hcj
      have h1 : i < 2 := hp ▸ hi.1
      have h2 : j < 2 := hp ▸ hj.1
      simp only [Range.Contains, PhdrInfo.range_base, PhdrInfo.range_size] at hci hcj
      obtain ⟨rfl, rfl⟩ | ⟨rfl, rfl⟩ : i = 0 ∧ j = 1 ∨ i = 1 ∧ j = 0 := by omega
      · omega
      · omega }

/-- Two segments of 16 bytes and two sections. -/
def sampleImage (load₁ load₂ bss₁ bss₂ : List (BitVec 8)) : ElfLoader :=
  ofBytes (ehdrBytes 2 2 ++ load₁ ++ load₂ ++ bss₁ ++ bss₂)

/-- With the entries of both tables swapped the image leaves the same memory. -/
theorem swapped_entries_same :
    let A := loadBytes 0 0x100001000 16 16
    let B := loadBytes 16 0x100002000 16 16
    let C := nobitsBytes 0x100003000 16
    let D := nobitsBytes 0x100003008 16
    let e := sampleImage A B C D
    let e' := sampleImage B A D C
    let mem : Bytes := fun _ => 0xff
    e.Walkable ∧ (e.deploy mem).1 = true ∧ (e'.deploy mem).1 = true ∧
      (e'.deploy mem).2.mem = (e.deploy mem).2.mem := by
  intro A B C D e e' mem
  have hloads : e.loads = [⟨0x100001000, 0, 16⟩, ⟨0x100002000, 16, 16⟩] := by decide +kernel
  have hbss : e.bss = [⟨0x100003000, 16⟩, ⟨0x100003008, 16⟩] := by decide +kernel
  have hhead : e.headerOk = true := by decide +kernel
  have hw : e.Walkable := by
    apply Walkable.of_lists (.inr (by decide +kernel)) (.inr (by decide +kernel))
    · rw [hloads]
      decide
    · rw [hbss]
      decide
  have hok : (e.deploy mem).1 = true := by
    rw [e.deploy_accepts, ranges, hhead, hloads, hbss]
    decide
  have R : Reordering e e' := .swap (by decide +kernel) (by decide +kernel) (by decide +kernel) (by decide +kernel)
    (by decide +kernel) (by decide +kernel) (by decide +kernel)
  obtain ⟨hv, hm⟩ := (deploy_effect e hw mem).2.2 e' R
  exact ⟨hw, hok, hv.trans hok, hm hok⟩

/-- The first segment's file bytes are program headers: with these swapped, another byte is loaded at `0x100001008`. -/
theorem reordered_source :
    let A := loadBytes 64 0x100001000 16 16
    let B := loadBytes 0 0x100002000 16 16
    let e := ofBytes (ehdrBytes 2 0 ++ A ++ B)
    let e' := ofBytes (ehdrBytes 2 0 ++ B ++ A)
    let mem : Bytes := fun _ => 0
    (e.Walkable ∧ e.ImageInside ∧ e.loads = [⟨0x100001000, 64, 16⟩, ⟨0x100002000, 0, 16⟩]) ∧
      (e'.Walkable ∧ e'.ImageInside ∧ e'.loads = e.loads.reverse) ∧
      ((e.deploy mem).1 = true ∧ (e.deploy mem).2.mem 0x100001008 = 0x40) ∧
      (e'.deploy mem).1 = true ∧ (e'.deploy mem).2.mem 0x100001008 = 0 := by
  intro A B e e' mem
  have hloads : e.loads = [⟨0x100001000, 64, 16⟩, ⟨0x100002000, 0, 16⟩] := by decide +kernel
  have hloads' : e'.loads = [⟨0x100002000, 0, 16⟩, ⟨0x100001000, 64, 16⟩] := by decide +kernel
  have hphdrs : e.phdrs = [⟨64⟩, ⟨120⟩] ∧ e'.phdrs = [⟨64⟩, ⟨120⟩] := by decide +kernel
  have hshdrs : e.shdrs = [] ∧ e'.shdrs = [] := by decide +kernel
  have hhead : e.headerOk = true ∧ e'.headerOk = true := by decide +kernel
  have hbss : e.bss = [] := by rw [bss, hshdrs.1, List.filterMap_nil]
  have hbss' : e'.bss = [] := by rw [bss, hshdrs.2, List.filterMap_nil]
  have hlen : e.len = 176 ∧ e'.len = 176 := by decide +kernel
  have hok : (e.deploy mem).1 = true := by
    rw [e.deploy_accepts, ranges, hhead.1, hloads, hbss]
    decide
  have hok' : (e'.deploy mem).1 = true := by
    rw [e'.deploy_accepts, ranges, hhead.2, hloads', hbss']
    decide
  have hbyte : e.addr (64 + (0x100001008 - 0x100001000)) = 0x40 := by decide +kernel
  have hbyte' : e'.addr (64 + (0x100001008 - 0x100001000)) = 0 := by decide +kernel
  refine ⟨⟨?_, ?_, hloads⟩, ⟨?_, ?_, by rw [hloads, hloads']; rfl⟩, ⟨hok, ?_⟩, hok', ?_⟩
  · exact .of_lists (.inr (by decide +kernel)) (.inl (by decide +kernel)) (by rw [hloads]; decide) (by rw [hbss]; decide)
  · refine ⟨?_, ?_, ?_, ?_⟩ <;> simp [hlen.1, hphdrs.1, hloads, hshdrs.1]
  · exact .of_lists (.inr (by decide +kernel)) (.inl (by decide +kernel)) (by rw [hloads']; decide) (by rw [hbss']; decide)
  · refine ⟨?_, ?_, ?_, ?_⟩ <;> simp [hlen.2, hphdrs.2, hloads', hshdrs.2]
  · rw [e.deploy_mem mem hok, hbss, hloads]
    exact hbyte
  · rw [e'.deploy_mem mem hok', hbss', hloads']
    exact hbyte'

end ElfLoader

end Toshokan.Hakase
