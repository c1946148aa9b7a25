import Toshokan.Lib.X86
import Toshokan.Hakase.FreshStart

/-!
# `hakase/friend_boot16.S`: the code of the trampoline

* `friendBoot16` : the source, line by line; `Assembly` : a binary of it, with the machine code the assembler has chosen;
* `Ready` : the trampoline is in memory with its page tables; `ready_started` : so it is after `setup`;
* `Ready.mark`, `Ready.kept` : it stays ready when a processor marks a descriptor as accessed, and when others write
  elsewhere; `Flagged` : all that paging writes are accessed and dirty flags of entries, and these are not looked at.
-/

namespace Toshokan.Hakase
open Lib (Bytes Range)
open Lib.X86

/-! ## The source -/

inductive Label
  | entry16
  | addr
  | _entry16
  | gdtr32
  | gdtDesc32
  | entry32
  | start
  | gdtDesc64
  | gdtr64
  deriving DecidableEq, Repr

/-- A number, a label above a base, or the distance of a label from the next instruction. -/
inductive Operand
  | imm (v : BitVec 64)
  | label (base : BitVec 64) (l : Label)
  | rel (l : Label)
  deriving DecidableEq, Repr

inductive Line
  | label (l : Label)
  | code (w : CodeSize) (i : Instr Operand)
  | balign8
  | quad (v : Operand)
  | long (v : Operand)
  | word (v : BitVec 16)
  deriving DecidableEq, Repr

/-- The descriptors of the code and data segments, for 32-bit and for 64-bit code. -/
def kernelCode32 : BitVec 64 := 0x00CF9A000000FFFF
def kernelData32 : BitVec 64 := 0x00CF92000000FFFF
def kernelCode64 : BitVec 64 := 0x00209a0000000000
def kernelData64 : BitVec 64 := 0x0000920000000000

def friendBoot16 : List Line :=
  [.label .entry16,
    .code .code16 (.jmp (.rel ._entry16)),
    .balign8,
    .label .addr,
    .quad (.imm DEPLOY_PHYS_ADDR_START),
    .label ._entry16,
    .code .code16 .cli,
    .code .code16 .movwCsAx,
    .code .code16 .movwAxDs,
    -- switch to protect mode
    .code .code16 (.lgdtl (.label 0 .gdtr32)),
    .code .code16 .movlCr0Eax,
    .code .code16 (.orlEax (1#32 <<< 0)),
    .code .code16 .movlEaxCr0,
    .code .code16 (.ljmpl 0x08 (.label TRAMPOLINE_ADDR .entry32)),
    .balign8,
    .word 0,
    .label .gdtr32,
    .word (8 * 4 - 1),
    .long (.label TRAMPOLINE_ADDR .gdtDesc32),
    .label .gdtDesc32,
    .quad (.imm 0),
    .quad (.imm kernelCode32),
    .quad (.imm kernelData32),
    .label .entry32,
    .code .code32 (.movwAx 0x10),
    .code .code32 .movwAxDs,
    -- load cr3
    .code .code32 (.movlEdi (INITIAL_PML4T.setWidth 32)),
    .code .code32 .movlEdiCr3,
    -- set PAE&PGE&PSE bit
    .code .code32 .movlCr4Eax,
    .code .code32 (.orlEax (1#32 <<< 4 ||| 1#32 <<< 5 ||| 1#32 <<< 7)),
    .code .code32 .movlEaxCr4,
    -- switch to long mode: set LM bit
    .code .code32 (.movlEcx 0xC0000080),
    .code .code32 .rdmsr,
    .code .code32 (.orlEax (1#32 <<< 8)),
    .code .code32 .wrmsr,
    -- set PG bit
    .code .code32 .movlCr0Eax,
    .code .code32 (.orlEax (1#32 <<< 31)),
    .code .code32 (.andlEax (~~~(1#32 <<< 30 ||| 1#32 <<< 29))),
    .code .code32 .movlEaxCr0,
    -- setup gdt
    .code .code32 (.lgdtl (.label TRAMPOLINE_ADDR .gdtr64)),
    .code .code32 (.ljmpl 0x10 (.label TRAMPOLINE_ADDR .start)),
    .label .start,
    .code .code64 (.movwAx 0x18),
    .code .code64 .movwAxDs,
    .code .code64 .movwAxSs,
    .code .code64 (.movqRax (.label TRAMPOLINE_ADDR .addr)),
    .code .code64 .jmpqRax,
    .balign8,
    .label .gdtDesc64,
    .quad (.imm 0),
    .quad (.imm 0),
    .quad (.imm kernelCode64),
    .quad (.imm kernelData64),
    .quad (.imm 0x0000f20000000000),
    .quad (.imm 0x0020fa0000000000),
    .word 0,
    .label .gdtr64,
    .word (8 * 6 - 1),
    .quad (.label TRAMPOLINE_ADDR .gdtDesc64)]

def Label.line (l : Label) : Nat := friendBoot16.idxOf (.label l)

/-! ## A binary of it -/

section Offsets
variable (enc : Nat → List (BitVec 8))

/-- The size of a line at the offset `o`, whose machine code is `bytes` if it is an instruction. -/
def Line.size (bytes : List (BitVec 8)) (o : Nat) : Line → Nat
  | .label _ => 0
  | .code _ _ => bytes.length
  | .balign8 => (8 - o % 8) % 8
  | .quad _ => 8
  | .long _ => 4
  | .word _ => 2

/-- The offset of line `j` in the binary, which is linked at 0, for the machine code `enc j` of each line `j`. -/
def offsetOf : Nat → Nat
  | 0 => 0
  | j + 1 => offsetOf j + ((friendBoot16[j]?).map (Line.size (enc j) (offsetOf j))).getD 0

def Label.value (l : Label) : BitVec 64 := BitVec.ofNat 64 (offsetOf enc l.line)

def Operand.value (next : Nat) : Operand → BitVec 64
  | .imm v => v
  | .label base l => base + l.value enc
  | .rel l => l.value enc - BitVec.ofNat 64 next

/-- Line `j` is in the memory `m`, in which the binary begins at `base`. -/
def Line.Holds (m : Bytes) (base : BitVec 64) (j : Nat) : Line → Prop
  | .label _ | .balign8 => True
  | .code _ _ => ∀ k (hk : k < (enc j).length), m (base + BitVec.ofNat 64 (offsetOf enc j + k)) = (enc j)[k]
  | .quad v => m.read64 (base + BitVec.ofNat 64 (offsetOf enc j)) = v.value enc (offsetOf enc (j + 1))
  | .long v => m.read32 (base + BitVec.ofNat 64 (offsetOf enc j)) = (v.value enc (offsetOf enc (j + 1))).setWidth 32
  | .word v => m.read16 (base + BitVec.ofNat 64 (offsetOf enc j)) = v

end Offsets

/-- A binary of `friend_boot16.S`. The jump over `addr` takes two or three bytes. -/
structure Assembly (E : Encoding) where
  enc : Nat → List (BitVec 8)
  length_enc : ∀ j, 0 < (enc j).length ∧ (enc j).length ≤ 15
  length_jmp : (enc 1).length ≤ 3
  encodes : ∀ j w i, friendBoot16[j]? = some (.code w i) →
    ⟨w, enc j, i.map (Operand.value enc (offsetOf enc (j + 1)))⟩ ∈ E.table
  bin : Friend16
  size_eq : bin.size = BitVec.ofNat 64 (offsetOf enc friendBoot16.length)
  holds : ∀ j (l : Line), friendBoot16[j]? = some l → l.Holds enc bin.start 0 j

namespace Assembly

variable {E : Encoding} (A : Assembly E)

def offset (j : Nat) : Nat := offsetOf A.enc j

def place (j : Nat) : BitVec 64 := TRAMPOLINE_ADDR + BitVec.ofNat 64 (A.offset j)

theorem offset_succ {j : Nat} {l : Line} (h : friendBoot16[j]? = some l) :
    A.offset (j + 1) = A.offset j + l.size (A.enc j) (A.offset j) := by
  rw [offset, offsetOf, h]
  rfl

theorem offset_code {j : Nat} {w : CodeSize} {i : Instr Operand} (h : friendBoot16[j]? = some (.code w i)) :
    A.offset (j + 1) = A.offset j + (A.enc j).length := A.offset_succ h

theorem offset_label {j : Nat} {l : Label} (h : friendBoot16[j]? = some (.label l)) : A.offset (j + 1) = A.offset j :=
  A.offset_succ h

theorem offset_quad {j : Nat} {v : Operand} (h : friendBoot16[j]? = some (.quad v)) :
    A.offset (j + 1) = A.offset j + 8 := A.offset_succ h

theorem offset_le_succ (j : Nat) : A.offset j ≤ A.offset (j + 1) := by
  rw [offset, offset, offsetOf]
  exact Nat.le_add_right _ _

theorem offset_mono {i j : Nat} (h : i ≤ j) : A.offset i ≤ A.offset j := by
  induction h with
  | refl => exact le_rfl
  | step _ ih => exact ih.trans (A.offset_le_succ _)

theorem offset_le (j : Nat) : A.offset j ≤ 15 * j := by
  induction j with
  | zero => exact le_rfl
  | succ j ih =>
      have hlen := (A.length_enc j).2
      cases hl : friendBoot16[j]? with
      | none =>
          have hnext : A.offset (j + 1) = A.offset j + 0 := by
            rw [offset, offsetOf, hl]
            rfl
          omega
      | some l =>
          rw [A.offset_succ hl]
          cases l <;> simp only [Line.size] <;> omega

theorem line_lt {j : Nat} {l : Line} (h : friendBoot16[j]? = some l) : j < 59 := (List.getElem?_eq_some_iff.mp h).1

theorem offset_succ_le {j : Nat} {l : Line} (h : friendBoot16[j]? = some l) : A.offset (j + 1) ≤ 885 := by
  have hj := line_lt h
  have hle := A.offset_le (j + 1)
  omega

/-- `addr` is where `Loader16::Init` writes the entry point. -/
theorem offset_addr : A.offset 4 = 8 ∧ A.offset 5 = 16 := by
  have h1 : A.offset 1 = 0 := A.offset_label (j := 0) rfl
  have h2 : A.offset 2 = A.offset 1 + (A.enc 1).length := A.offset_code (j := 1) rfl
  have h3 : A.offset 3 = A.offset 2 + (8 - A.offset 2 % 8) % 8 := A.offset_succ (j := 2) rfl
  have h4 : A.offset 4 = A.offset 3 := A.offset_label (j := 3) rfl
  have h5 : A.offset 5 = A.offset 4 + 8 := A.offset_quad (j := 4) rfl
  have hlen := (A.length_enc 1).1
  have hjmp := A.length_jmp
  omega

theorem toNat_place {j : Nat} (hj : j ≤ 59) : (A.place j).toNat = 0x70000 + A.offset j := by
  have hle := A.offset_le j
  rw [place, BitVec.toNat_add, toNat_trampoline_addr, BitVec.toNat_ofNat]
  omega

theorem place_addr : A.place 4 = TRAMPOLINE_ADDR + 8 := by
  rw [place, A.offset_addr.1]
  rfl

end Assembly

/-! ## The trampoline in memory -/

theorem Line.Holds.congr {enc : Nat → List (BitVec 8)} {m m' : Bytes} {base base' : BitVec 64} {j : Nat} {l : Line}
    (h : l.Holds enc m' base' j)
    (hm : Bytes.Agree m m' (base + BitVec.ofNat 64 (offsetOf enc j)) (base' + BitVec.ofNat 64 (offsetOf enc j))
      (l.size (enc j) (offsetOf enc j))) : l.Holds enc m base j := by
  cases l with
  | label | balign8 => trivial
  | code w i =>
      intro k hk
      have hk' : (BitVec.ofNat 64 k).toNat < (enc j).length := by
        rw [BitVec.toNat_ofNat]
        exact lt_of_le_of_lt (Nat.mod_le _ _) hk
      rw [← h k hk, BitVec.ofNat_add, ← BitVec.add_assoc, ← BitVec.add_assoc]
      exact hm _ hk'
  | quad v => exact hm.read64.trans h
  | long v => exact hm.read32.trans h
  | word v => exact hm.read16.trans h

/-- The page of the trampoline with its code. -/
def codePage : Range := ⟨TRAMPOLINE_ADDR, PAGE_SIZE⟩

/-- The lines of the descriptors in use, whose accessed bits processors set. -/
def descriptorLines : List Nat := [21, 22, 51, 52]

def accessed : BitVec 64 := 0x10000000000

theorem descriptor_line {j : Nat} (hj : j ∈ descriptorLines) : ∃ v, friendBoot16[j]? = some (.quad (.imm v)) := by
  simp only [descriptorLines, List.mem_cons, List.not_mem_nil, or_false] at hj
  rcases hj with rfl | rfl | rfl | rfl <;> exact ⟨_, rfl⟩

/-- The trampoline is ready for the entry point `entry`: its lines, the descriptors with or without their accessed bits,
and the page tables with whatever accessed and dirty flags. -/
structure Ready {E : Encoding} (A : Assembly E) (T : Tables) (entry : BitVec 64) (m : Bytes) : Prop where
  holds : ∀ j (l : Line), friendBoot16[j]? = some l → j ≠ 4 → j ∉ descriptorLines → l.Holds A.enc m TRAMPOLINE_ADDR j
  address : m.read64 (A.place 4) = entry
  descriptor : ∀ j ∈ descriptorLines, ∀ v, friendBoot16[j]? = some (.quad (.imm v)) →
    m.read64 (A.place j) = v ∨ m.read64 (A.place j) = v ||| accessed
  entries : T.Entries m.unflag

namespace Tables

variable {T : Tables} {m m' : Bytes}

theorem entries_of_cells (h : ∀ {t v : BitVec 64} {i : Nat}, ⟨t, i, v⟩ ∈ T.cells → m.read64 (slot t i) = v) :
    T.Entries m where
  root := h (mem_cells.mpr (.inl rfl))
  low := h (mem_cells.mpr (.inr (.inl rfl)))
  high := h (mem_cells.mpr (.inr (.inr (.inl rfl))))
  page := h (mem_cells.mpr (.inr (.inr (.inr (.inl rfl)))))
  friendPages i hi := h (mem_cells.mpr (.inr (.inr (.inr (.inr ⟨i, hi, rfl⟩)))))

theorem Entries.read (h : T.Entries m) {c : Cell} (hc : c ∈ T.cells) : m.read64 (slot c.page c.index) = c.value := by
  rcases mem_cells.mp hc with rfl | rfl | rfl | rfl | ⟨i, hi, rfl⟩
  · exact h.root
  · exact h.low
  · exact h.high
  · exact h.page
  · exact h.friendPages i hi

/-- The entries are written without accessed and dirty flags. -/
theorem bare_value {c : Cell} (hc : c ∈ T.cells) : Lib.bare c.value = c.value := by
  rcases mem_cells.mp hc with rfl | rfl | rfl | rfl | ⟨i, hi, rfl⟩
  · exact T.links.1.bare_eq
  · exact T.links.2.1.bare_eq
  · exact T.links.2.2.bare_eq
  · exact huge_first.bare_eq
  · exact (huge_friendPage hi).bare_eq

def Has (T : Tables) (a : BitVec 64) : Prop := ∃ t ∈ T.pages, (Range.mk t PAGE_SIZE).covers a = true

theorem has_slot {c : Cell} (hc : c ∈ T.cells) {k : BitVec 64} (hk : k < 8) : T.Has (slot c.page c.index + k) := by
  obtain ⟨hpage, hindex⟩ := cell_bounds hc
  obtain ⟨-, -, hlt⟩ := pages_bounds hpage
  have hslot := toNat_slot hpage hindex
  have hsize : PAGE_SIZE.toNat = 0x1000 := rfl
  rw [BitVec.lt_def, Lib.toNat_eight] at hk
  refine ⟨c.page, hpage, ?_⟩
  rw [Range.covers_iff (by dsimp only; omega), BitVec.toNat_add, hslot]
  dsimp only
  omega

theorem Has.not_codePage {a : BitVec 64} (h : T.Has a) : codePage.covers a = false := by
  obtain ⟨t, ht, ha⟩ := h
  obtain ⟨-, hge, hlt⟩ := pages_bounds ht
  have hsize : PAGE_SIZE.toNat = 0x1000 := rfl
  rw [Range.covers_iff (by dsimp only; omega)] at ha
  rw [← Bool.not_eq_true, Range.covers_iff (by decide), show codePage.base.toNat = 0x70000 from rfl,
    show codePage.size.toNat = 0x1000 from rfl]
  dsimp only at ha
  omega

theorem Entries.congr (h : T.Entries m) (hm : ∀ a, T.Has a → m' a = m a) : T.Entries m' := by
  refine entries_of_cells fun {t v i} hc => (Bytes.read64_congr fun k hk => ?_).trans (h.read (c := ⟨t, i, v⟩) hc)
  exact hm _ (has_slot (c := ⟨t, i, v⟩) hc hk)

end Tables

section Started
variable {E : Encoding} (A : Assembly E) (L : Layout) (e : ElfLoader) (m : Bytes)

theorem size_bin : A.bin.size ≤ PAGE_SIZE := by
  have hle : A.offset friendBoot16.length ≤ 885 := A.offset_le 59
  rw [A.size_eq, BitVec.le_def, BitVec.toNat_ofNat]
  exact (Nat.mod_le _ _).trans (hle.trans (by decide))

/-- `setup` leaves the bytes of the binary but for those of `addr`. -/
theorem agree_started {j : Nat} {l : Line} (hl : friendBoot16[j]? = some l) (hj : j ≠ 4) :
    Bytes.Agree (started L A.bin e m) A.bin.start (A.place j) (0 + BitVec.ofNat 64 (A.offset j))
      (l.size (A.enc j) (A.offset j)) := by
  have hsucc := A.offset_succ hl
  have hend : A.offset (j + 1) ≤ A.offset 59 := A.offset_mono (Assembly.line_lt hl)
  have hle := A.offset_succ_le hl
  obtain ⟨h4, h5⟩ := A.offset_addr
  -- the line is before or behind `addr`
  have hout : A.offset (j + 1) ≤ 8 ∨ 16 ≤ A.offset j := by
    rcases Nat.lt_or_ge j 4 with hlt | hge
    · have := A.offset_mono (i := j + 1) (j := 4) hlt
      omega
    · have := A.offset_mono (i := 5) (j := j) (by omega)
      omega
  have hsize : A.bin.size.toNat = A.offset 59 := by
    have hle' := A.offset_le 59
    rw [A.size_eq, BitVec.toNat_ofNat]
    exact Nat.mod_eq_of_lt (show A.offset 59 < 2 ^ 64 by omega)
  intro k hk
  have hsum : (BitVec.ofNat 64 (A.offset j) + k).toNat = A.offset j + k.toNat := by
    rw [BitVec.toNat_add, BitVec.toNat_ofNat]
    omega
  rw [show (0 : BitVec 64) + BitVec.ofNat 64 (A.offset j) = BitVec.ofNat 64 (A.offset j) from BitVec.zero_add _,
    Assembly.place, BitVec.add_assoc]
  refine started_code (size_bin A) ?_ ?_
  · rw [BitVec.lt_def, hsum, hsize]
    omega
  · rw [BitVec.le_def, BitVec.lt_def, hsum, Lib.toNat_eight, show (16 : BitVec 64).toNat = 16 from rfl]
    omega

/-- **The trampoline is ready after `setup`.** -/
theorem ready_started : Ready A L.toTables e.getEntry (started L A.bin e m) where
  holds j l hl hj _ := (A.holds j l hl).congr (agree_started A L e m hl hj)
  address := by
    rw [A.place_addr]
    exact started_entry
  descriptor j hj v hl := by
    have hne : j ≠ 4 := by
      rintro rfl
      exact absurd hj (by decide)
    have hq : (Line.quad (.imm v)).Holds A.enc (started L A.bin e m) TRAMPOLINE_ADDR j :=
      (A.holds j _ hl).congr (agree_started A L e m hl hne)
    exact .inl hq
  entries := by
    refine Tables.entries_of_cells fun {t v i} hc => ?_
    have hslot : (Tables.slot t i).toNat % 8 = 0 := Tables.write_aligned (List.mem_map_of_mem hc)
    rw [Lib.read64_unflag _ hslot, started_tables (c := ⟨t, i, v⟩) hc]
    exact Tables.bare_value hc

end Started

/-! ## What a core does to it -/

section Marks
variable {E : Encoding} {A : Assembly E} {T : Tables} {entry : BitVec 64} {m m' : Bytes}

/-- The descriptor on line `j` is marked as accessed. -/
def Assembly.mark (A : Assembly E) (m : Bytes) (j : Nat) : Bytes :=
  Function.update m (A.place j + 5) (m (A.place j + 5) ||| 1)

theorem quad_bounds {j : Nat} {v : Operand} (hl : friendBoot16[j]? = some (.quad v)) :
    A.offset (j + 1) = A.offset j + 8 ∧ (A.place j + 5).toNat = 0x70000 + A.offset j + 5 := by
  have hle := A.offset_succ_le hl
  have hplace := A.toNat_place (Assembly.line_lt hl).le
  have hsucc := A.offset_quad hl
  refine ⟨hsucc, ?_⟩
  rw [BitVec.toNat_add, hplace, show (5 : BitVec 64).toNat = 5 from rfl]
  omega

theorem agree_mark {j j' : Nat} {v : Operand} (hl : friendBoot16[j]? = some (.quad v)) {l : Line}
    (hl' : friendBoot16[j']? = some l) (hne : j' ≠ j) :
    Bytes.Agree (A.mark m j) m (A.place j') (A.place j') (l.size (A.enc j') (A.offset j')) := by
  obtain ⟨hsucc, hfive⟩ := quad_bounds (A := A) hl
  have hsucc' := A.offset_succ hl'
  have hle := A.offset_succ_le hl'
  have hplace := A.toNat_place (Assembly.line_lt hl').le
  intro k hk
  have haddr : (A.place j' + k).toNat = 0x70000 + A.offset j' + k.toNat := by
    rw [BitVec.toNat_add, hplace]
    omega
  refine Function.update_of_ne (fun heq => ?_) _ _
  have heq := congrArg BitVec.toNat heq
  rw [haddr, hfive] at heq
  rcases Nat.lt_or_gt_of_ne hne with hlt | hgt
  · have := A.offset_mono (i := j' + 1) (j := j) hlt
    omega
  · have := A.offset_mono (i := j + 1) (j := j') hgt
    omega

theorem Ready.mark (h : Ready A T entry m) {j : Nat} (hj : j ∈ descriptorLines) {v : BitVec 64}
    (hl : friendBoot16[j]? = some (.quad (.imm v))) : Ready A T entry (A.mark m j) where
  holds j' l hl' hne hnot := by
    have hjj : j' ≠ j := by
      rintro rfl
      exact hnot hj
    exact (h.holds j' l hl' hne hnot).congr (agree_mark hl hl' hjj)
  address := by
    have hjj : 4 ≠ j := by
      rintro rfl
      exact absurd hj (by decide)
    have haddr : friendBoot16[4]? = some (.quad (.imm DEPLOY_PHYS_ADDR_START)) := rfl
    exact (agree_mark (A := A) (m := m) hl haddr hjj).read64.trans h.address
  descriptor j' hj' v' hl' := by
    by_cases hjj : j' = j
    · subst hjj
      have hread : (A.mark m j').read64 (A.place j') = m.read64 (A.place j') ||| accessed := Processor.read64_mark m _
      right
      rcases h.descriptor j' hj' v' hl' with hd | hd
      · rw [hread, hd]
      · rw [hread, hd, BitVec.or_assoc, BitVec.or_self]
    · have hread : (A.mark m j).read64 (A.place j') = m.read64 (A.place j') := (agree_mark hl hl' hjj).read64
      rw [hread]
      exact h.descriptor j' hj' v' hl'
  entries := by
    refine h.entries.congr fun a ha => Lib.unflag_congr (Function.update_of_ne ?_ _ _)
    rintro rfl
    obtain ⟨hsucc, hfive⟩ := quad_bounds (A := A) hl
    have hle := A.offset_succ_le hl
    have hin : codePage.covers (A.place j + 5) = true := by
      rw [Range.covers_iff (by decide), hfive, show codePage.base.toNat = 0x70000 from rfl,
        show codePage.size.toNat = 0x1000 from rfl]
      omega
    rw [ha.not_codePage] at hin
    cases hin

/-- The page of the code is as it was, and so are the page tables but for accessed and dirty flags. -/
structure Kept (T : Tables) (m m' : Bytes) : Prop where
  code : ∀ a, codePage.covers a = true → m' a = m a
  tables : ∀ a, T.Has a → m'.unflag a = m.unflag a

/-- The byte at `a` is as it was, but for the accessed and dirty flags of an entry. -/
def SameButFlags (T : Tables) (m m' : Bytes) (a : BitVec 64) : Prop := m' a = m a ∨ T.Has a ∧ m'.unflag a = m.unflag a

theorem SameButFlags.trans {m'' : Bytes} {a : BitVec 64} (h : SameButFlags T m m' a) (h' : SameButFlags T m' m'' a) :
    SameButFlags T m m'' a := by
  rcases h with h | ⟨ha, h⟩
  · rcases h' with h' | ⟨ha, h'⟩
    · exact .inl (h'.trans h)
    · exact .inr ⟨ha, h'.trans (Lib.unflag_congr h)⟩
  · rcases h' with h' | ⟨-, h'⟩
    · exact .inr ⟨ha, (Lib.unflag_congr h').trans h⟩
    · exact .inr ⟨ha, h'.trans h⟩

/-- What the paging of a core does to memory. -/
def Flagged (T : Tables) (m m' : Bytes) : Prop := ∀ a, SameButFlags T m m' a

theorem Flagged.kept (h : Flagged T m m') : Kept T m m' where
  code a ha := by
    refine (h a).resolve_right fun hin => ?_
    rw [hin.1.not_codePage] at ha
    cases ha
  tables a _ := (h a).elim Lib.unflag_congr And.right

theorem Kept.agree (h : Kept T m m') {j : Nat} {l : Line} (hl : friendBoot16[j]? = some l) :
    Bytes.Agree m' m (A.place j) (A.place j) (l.size (A.enc j) (A.offset j)) := by
  have hsucc := A.offset_succ hl
  have hle := A.offset_succ_le hl
  have hplace := A.toNat_place (Assembly.line_lt hl).le
  intro k hk
  refine h.code _ ?_
  rw [Range.covers_iff (by decide), BitVec.toNat_add, hplace, show codePage.base.toNat = 0x70000 from rfl,
    show codePage.size.toNat = 0x1000 from rfl]
  omega

theorem Ready.kept (h : Ready A T entry m) (hm : Kept T m m') : Ready A T entry m' where
  holds j l hl hne hnot := (h.holds j l hl hne hnot).congr (hm.agree hl)
  address := by
    have haddr : friendBoot16[4]? = some (.quad (.imm DEPLOY_PHYS_ADDR_START)) := rfl
    exact (hm.agree (A := A) haddr).read64.trans h.address
  descriptor j hj v hl := by
    rw [(hm.agree (A := A) hl).read64]
    exact h.descriptor j hj v hl
  entries := h.entries.congr hm.tables

end Marks

/-! ## An assembler's choice -/

def sampleCode (j : Nat) : List (BitVec 8) :=
  match j with
  | 1 => [0xeb, 0x0e]
  | 6 => [0xfa]
  | 7 => [0x8c, 0xc8]
  | 8 => [0x8e, 0xd8]
  | 9 => [0x66, 0x0f, 0x01, 0x16, 0x32, 0x00]
  | 10 => [0x0f, 0x20, 0xc0]
  | 11 => [0x66, 0x83, 0xc8, 0x01]
  | 12 => [0x0f, 0x22, 0xc0]
  | 13 => [0x66, 0xea, 0x50, 0x00, 0x07, 0x00, 0x08, 0x00]
  | 24 => [0x66, 0xb8, 0x10, 0x00]
  | 25 => [0x8e, 0xd8]
  | 26 => [0xbf, 0x00, 0x10, 0x07, 0x00]
  | 27 => [0x0f, 0x22, 0xdf]
  | 28 => [0x0f, 0x20, 0xe0]
  | 29 => [0x0d, 0xb0, 0x00, 0x00, 0x00]
  | 30 => [0x0f, 0x22, 0xe0]
  | 31 => [0xb9, 0x80, 0x00, 0x00, 0xc0]
  | 32 => [0x0f, 0x32]
  | 33 => [0x0d, 0x00, 0x01, 0x00, 0x00]
  | 34 => [0x0f, 0x30]
  | 35 => [0x0f, 0x20, 0xc0]
  | 36 => [0x0d, 0x00, 0x00, 0x00, 0x80]
  | 37 => [0x25, 0xff, 0xff, 0xff, 0x9f]
  | 38 => [0x0f, 0x22, 0xc0]
  | 39 => [0x0f, 0x01, 0x15, 0xda, 0x00, 0x07, 0x00]
  | 40 => [0xea, 0x95, 0x00, 0x07, 0x00, 0x10, 0x00]
  | 42 => [0x66, 0xb8, 0x18, 0x00]
  | 43 => [0x8e, 0xd8]
  | 44 => [0x8e, 0xd0]
  | 45 => [0x48, 0xc7, 0xc0, 0x08, 0x00, 0x07, 0x00]
  | _ => [0xff, 0x20]

def Line.bytes (j : Nat) : Line → List (BitVec 8)
  | .label _ => []
  | .code _ _ => sampleCode j
  | .balign8 => List.replicate ((8 - offsetOf sampleCode j % 8) % 8) 0
  | .quad v => le 8 (v.value sampleCode (offsetOf sampleCode (j + 1))).toNat
  | .long v => le 4 (v.value sampleCode (offsetOf sampleCode (j + 1))).toNat
  | .word v => le 2 v.toNat

def Line.instr (j : Nat) : Line → Option Code
  | .code w i => some ⟨w, sampleCode j, i.map (Operand.value sampleCode (offsetOf sampleCode (j + 1)))⟩
  | _ => none

def sampleEncoding : Encoding where
  table := (List.range 59).filterMap fun j => (friendBoot16[j]?).bind (Line.instr j)
  unambiguous := by decide +kernel

instance {enc : Nat → List (BitVec 8)} {m : Bytes} {base : BitVec 64} {j : Nat} :
    ∀ l : Line, Decidable (l.Holds enc m base j)
  | .label _ | .balign8 => .isTrue trivial
  | .code _ _ => inferInstanceAs (Decidable (∀ k (_ : k < _), _ = _))
  | .quad _ => inferInstanceAs (Decidable (_ = _))
  | .long _ => inferInstanceAs (Decidable (_ = _))
  | .word _ => inferInstanceAs (Decidable (_ = _))

def sampleBytes : List (BitVec 8) := (List.range 59).flatMap fun j => ((friendBoot16[j]?).map (Line.bytes j)).getD []

def sampleFriend16 : Friend16 := ⟨fun a => sampleBytes.getD a.toNat 0, BitVec.ofNat 64 sampleBytes.length⟩

theorem sampleFriend16_holds :
    ∀ j < 59, ∀ l ∈ friendBoot16[j]?, l.Holds sampleCode sampleFriend16.start 0 j := by decide +kernel

theorem sampleCode_length (j : Nat) : 0 < (sampleCode j).length ∧ (sampleCode j).length ≤ 15 := by
  unfold sampleCode
  split <;> decide

def sampleAssembly : Assembly sampleEncoding where
  enc := sampleCode
  length_enc := sampleCode_length
  length_jmp := by decide
  encodes j w i hl := by
    refine List.mem_filterMap.mpr ⟨j, List.mem_range.mpr (Assembly.line_lt hl), ?_⟩
    rw [hl]
    rfl
  bin := sampleFriend16
  size_eq := by decide +kernel
  holds j l hl := sampleFriend16_holds j (Assembly.line_lt hl) l hl

end Toshokan.Hakase
