import Toshokan.Hakase.ElfLoader

/-!
# What `Deploy` reads

`Deploy` never looks at `_len`, and ends its loops at the first entry whose offset comes out as 0.

* `deploy_trace` : all that `Deploy` touches, in order;
* `ReadsInside` : the reads stay in the image, or the image is rejected; `Fits` : the images for which it is so
  (`deploy_readsInside_iff`);
* `TableExact` : no entry of a table is at offset 0, and none beyond what the arithmetic of the offsets can express;
  `entries_exact_iff` : these are the tables found entry by entry; `WalksTables`, `deploy_walks_iff`.
-/

namespace Toshokan.Hakase
open Lib (Bytes Range)

/-! ## The trace -/

section Sweep
variable {α β : Type} (header : α → Access) (info : α → Option β) (range : β → Range)

/-- The entry asks for no memory, or for memory it may have. -/
def passes (x : α) : Bool := (info x).all fun i => accepts (range i)

def touched (access : β → Access) (x : α) : List Access :=
  header x :: ((info x).filter fun i => accepts (range i)).toList.map access

variable {fill : β → Loading → Loading} {access : β → Access}

theorem deployEntry_trace (hf : ∀ i s, (fill i s).trace = s.trace ++ [access i]) (x : α) (s : Loading) :
    (deployEntry header info range fill x s).1 = passes info range x ∧
      (deployEntry header info range fill x s).2.trace = s.trace ++ touched header info range access x := by
  unfold deployEntry passes touched
  cases hi : info x with
  | none => exact ⟨rfl, rfl⟩
  | some i =>
      by_cases ha : accepts (range i) = true
      · simp [ha, hf, Loading.touch, Option.filter]
      · simp [ha, Loading.touch, Option.filter]

theorem sweep_trace (hf : ∀ i s, (fill i s).trace = s.trace ++ [access i]) (xs : List α) (s : Loading) :
    (Lib.sweep (deployEntry header info range fill) xs s).1 = xs.all (passes info range) ∧
      (Lib.sweep (deployEntry header info range fill) xs s).2.trace =
        s.trace ++ (Lib.upto (passes info range) xs).flatMap (touched header info range access) := by
  induction xs generalizing s with
  | nil => simp [Lib.sweep, Lib.upto]
  | cons x xs ih =>
      obtain ⟨hret, htr⟩ := deployEntry_trace header info range hf x s
      rw [Lib.sweep, Lib.upto, List.flatMap_cons, List.all_cons]
      by_cases hp : passes info range x = true
      · obtain ⟨ihret, ihtr⟩ := ih (deployEntry header info range fill x s).2
        rw [hret, if_pos hp, if_pos hp, ihret, ihtr, htr, hp, List.append_assoc]
        exact ⟨rfl, rfl⟩
      · rw [hret, if_neg hp, if_neg hp, hret, htr, List.flatMap_nil, List.append_nil]
        rw [Bool.not_eq_true] at hp
        exact ⟨by rw [hp, Bool.false_and], rfl⟩

theorem mem_touched {x : α} {a : Access} :
    a ∈ touched header info range access x ↔
      a = header x ∨ ∃ i, info x = some i ∧ accepts (range i) = true ∧ a = access i := by
  unfold touched
  cases info x with
  | none => simp
  | some i =>
      by_cases ha : accepts (range i) = true
      · simp [Option.filter, ha]
      · simp [Option.filter, ha]

/-- Of what a turn touches, an `f` that is for headers selects the header. -/
theorem filterMap_touched {γ : Type} {f : Access → Option γ} (hf : ∀ i, f (access i) = none) (x : α) :
    (touched header info range access x).filterMap f = (f (header x)).toList := by
  have hrest : (((info x).filter fun i => accepts (range i)).toList.map access).filterMap f = [] := by
    rw [List.filterMap_eq_nil_iff]
    intro a ha
    obtain ⟨i, -, rfl⟩ := List.mem_map.mp ha
    exact hf i
  unfold touched
  cases hx : f (header x) with
  | none => rw [List.filterMap_cons_none hx, hrest, Option.toList_none]
  | some y => rw [List.filterMap_cons_some hx, hrest, Option.toList_some]

end Sweep

namespace ElfLoader

variable (e : ElfLoader)

/-- The program header is no `PT_LOAD`, or its range is accepted. -/
def phdrPasses : Phdr → Bool := passes e.getInfoIfLoad PhdrInfo.range

def shdrPasses : Shdr → Bool := passes e.getInfoIfBss SectionInfo.range

def phdrTouched : Phdr → List Access :=
  touched .phdr e.getInfoIfLoad PhdrInfo.range fun i => .memcpy i.range i.fileOffset

def shdrTouched : Shdr → List Access := touched .shdr e.getInfoIfBss SectionInfo.range fun i => .memset i.range

theorem loadSegments_trace (s : Loading) :
    (e.loadSegments s).1 = e.phdrs.all e.phdrPasses ∧
      (e.loadSegments s).2.trace = s.trace ++ (Lib.upto e.phdrPasses e.phdrs).flatMap e.phdrTouched := by
  unfold loadSegments
  rw [Lib.scan_eq_sweep]
  exact sweep_trace _ _ _ (fun _ _ => rfl) _ s

theorem clearSections_trace (s : Loading) :
    (e.clearSections s).1 = e.shdrs.all e.shdrPasses ∧
      (e.clearSections s).2.trace = s.trace ++ (Lib.upto e.shdrPasses e.shdrs).flatMap e.shdrTouched := by
  unfold clearSections
  rw [Lib.scan_eq_sweep]
  exact sweep_trace _ _ _ (fun _ _ => rfl) _ s

/-- The header, the program headers up to one with a bad range, and then the section headers likewise. -/
theorem deploy_trace (mem : Bytes) :
    (e.deploy mem).2.trace = .ehdr :: if e.headerOk = true then
      (Lib.upto e.phdrPasses e.phdrs).flatMap e.phdrTouched ++
        if e.phdrs.all e.phdrPasses = true then (Lib.upto e.shdrPasses e.shdrs).flatMap e.shdrTouched else []
    else [] := by
  obtain ⟨hret, htr⟩ := e.loadSegments_trace ⟨mem, [.ehdr]⟩
  rw [deploy_eq, hret]
  split
  · split
    · rw [(e.clearSections_trace _).2, htr, List.append_assoc]
      rfl
    · rw [htr, List.append_nil]
      rfl
  · rfl

theorem deploy_eq_true_iff (mem : Bytes) :
    (e.deploy mem).1 = true ↔
      e.headerOk = true ∧ e.phdrs.all e.phdrPasses = true ∧ e.shdrs.all e.shdrPasses = true := by
  have hret := (e.loadSegments_trace ⟨mem, [.ehdr]⟩).1
  rw [deploy_eq]
  split
  · rename_i hh
    split
    · rename_i hl
      rw [(e.clearSections_trace _).1, ← hret, hh, hl]
      simp
    · rename_i hl
      rw [← hret]
      simp [hl]
  · rename_i hh
    simp [hh]

/-! ## Reads -/

/-- `GetEntry` reads the header. -/
def getEntryTrace : List Access := [.ehdr]

end ElfLoader

/-- The bytes that an access reads lie in the first `len` of the image. -/
def Access.Inside (len : Nat) : Access → Prop
  | .ehdr => 64 ≤ len
  | .phdr p => p.raw.toNat + 56 ≤ len
  | .shdr p => p.raw.toNat + 64 ≤ len
  | .memcpy dst src => dst.size = 0 ∨ src.toNat + dst.size.toNat ≤ len
  | .memset _ => True

namespace ElfLoader

variable (e : ElfLoader)

/-- The header, the tables and the sources of all segments lie in the image. -/
structure ImageInside : Prop where
  ehdr : 64 ≤ e.len.toNat
  phdr : ∀ p ∈ e.phdrs, p.raw.toNat + 56 ≤ e.len.toNat
  source : ∀ i ∈ e.loads, i.size = 0 ∨ i.fileOffset.toNat + i.size.toNat ≤ e.len.toNat
  shdr : ∀ p ∈ e.shdrs, p.raw.toNat + 64 ≤ e.len.toNat

/-- Nothing outside the image is read, and an image that points outside is rejected. -/
structure ReadsInside (mem : Bytes) : Prop where
  deploy : ∀ a ∈ (e.deploy mem).2.trace, a.Inside e.len.toNat
  entry : ∀ a ∈ getEntryTrace, a.Inside e.len.toNat
  rejects : ¬ e.ImageInside → (e.deploy mem).1 = false

/-- A program header inside the image, with the source of its segment if that is accepted. -/
def PhdrFits (p : Phdr) : Prop :=
  p.raw.toNat + 56 ≤ e.len.toNat ∧ ∀ i, e.getInfoIfLoad p = some i → accepts i.range = true →
    i.size = 0 ∨ i.fileOffset.toNat + i.size.toNat ≤ e.len.toNat

/-- The image holds its header and, if it is one for `Deploy`, its program headers up to the first with a bad range; if
there is none, also its section headers likewise. -/
structure Fits : Prop where
  ehdr : 64 ≤ e.len.toNat
  phdr : e.headerOk = true → ∀ p ∈ Lib.upto e.phdrPasses e.phdrs, e.PhdrFits p
  shdr : e.headerOk = true → e.phdrs.all e.phdrPasses = true →
    ∀ p ∈ Lib.upto e.shdrPasses e.shdrs, p.raw.toNat + 64 ≤ e.len.toNat

theorem forall_phdrTouched_iff {p : Phdr} :
    (∀ a ∈ e.phdrTouched p, a.Inside e.len.toNat) ↔ e.PhdrFits p := by
  unfold phdrTouched PhdrFits
  simp only [mem_touched]
  constructor
  · intro h
    exact ⟨h _ (.inl rfl), fun i hi ha => h _ (.inr ⟨i, hi, ha, rfl⟩)⟩
  · rintro ⟨hp, hs⟩ a (rfl | ⟨i, hi, ha, rfl⟩)
    · exact hp
    · exact hs i hi ha

theorem forall_shdrTouched_iff {p : Shdr} :
    (∀ a ∈ e.shdrTouched p, a.Inside e.len.toNat) ↔ p.raw.toNat + 64 ≤ e.len.toNat := by
  unfold shdrTouched
  simp only [mem_touched]
  constructor
  · intro h
    exact h _ (.inl rfl)
  · rintro hp a (rfl | ⟨i, -, -, rfl⟩)
    · exact hp
    · exact trivial

theorem deploy_inside_iff (mem : Bytes) :
    (∀ a ∈ (e.deploy mem).2.trace, a.Inside e.len.toNat) ↔ e.Fits := by
  rw [e.deploy_trace mem]
  constructor
  · intro h
    refine ⟨h _ List.mem_cons_self, fun hh p hp => ?_, fun hh hall p hp => ?_⟩
    · rw [← forall_phdrTouched_iff]
      intro a ha
      apply h a (List.mem_cons_of_mem _ _)
      rw [if_pos hh]
      exact List.mem_append_left _ (List.mem_flatMap.mpr ⟨p, hp, ha⟩)
    · rw [← forall_shdrTouched_iff]
      intro a ha
      apply h a (List.mem_cons_of_mem _ _)
      rw [if_pos hh, if_pos hall]
      exact List.mem_append_right _ (List.mem_flatMap.mpr ⟨p, hp, ha⟩)
  · intro h a ha
    rcases List.mem_cons.mp ha with rfl | ha
    · exact h.ehdr
    · split at ha
      · rename_i hh
        rcases List.mem_append.mp ha with ha | ha
        · obtain ⟨p, hp, ha⟩ := List.mem_flatMap.mp ha
          exact e.forall_phdrTouched_iff.mpr (h.phdr hh p hp) a ha
        · split at ha
          · rename_i hall
            obtain ⟨p, hp, ha⟩ := List.mem_flatMap.mp ha
            exact e.forall_shdrTouched_iff.mpr (h.shdr hh hall p hp) a ha
          · cases ha
      · cases ha

/-- A successful `Deploy` has come to every entry, so that what it read is all there is. -/
theorem Fits.imageInside {e : ElfLoader} (h : e.Fits) {mem : Bytes} (hok : (e.deploy mem).1 = true) : e.ImageInside := by
  obtain ⟨hh, hp, hs⟩ := (e.deploy_eq_true_iff mem).mp hok
  have hphdr := h.phdr hh
  have hshdr := h.shdr hh hp
  rw [Lib.upto_eq_self (List.all_eq_true.mp hp)] at hphdr
  rw [Lib.upto_eq_self (List.all_eq_true.mp hs)] at hshdr
  refine ⟨h.ehdr, fun p hmem => (hphdr p hmem).1, fun i hi => ?_, hshdr⟩
  obtain ⟨p, hmem, hinfo⟩ := List.mem_filterMap.mp hi
  apply (hphdr p hmem).2 i hinfo
  have hpass := List.all_eq_true.mp hp p hmem
  rw [phdrPasses, passes, hinfo] at hpass
  exact hpass

/-- **`Deploy` and `GetEntry` read nothing outside the image**, and reject what points outside, iff the image fits. -/
theorem deploy_readsInside_iff (mem : Bytes) : e.ReadsInside mem ↔ e.Fits := by
  constructor
  · intro h
    exact (e.deploy_inside_iff mem).mp h.deploy
  · intro h
    refine ⟨(e.deploy_inside_iff mem).mpr h, fun a ha => ?_, fun hout => ?_⟩
    · rw [List.mem_singleton.mp ha]
      exact h.ehdr
    · by_contra hok
      exact hout (h.imageInside (Bool.not_eq_false _ ▸ hok))

end ElfLoader

/-! ### Images for examples -/

/-- `x` in `w` bytes, little-endian. -/
def le (w x : Nat) : List (BitVec 8) := (List.range w).map fun i => BitVec.ofNat 8 (x >>> (8 * i))

/-- An ELF header with `ph` program headers after it and `sh` section headers after those. -/
def ehdrBytes (ph sh : Nat) : List (BitVec 8) :=
  [0x7f, 0x45, 0x4c, 0x46, 2, 1, 1, 0] ++ le 8 0 ++ le 2 2 ++ le 2 62 ++ le 4 1 ++ le 8 0x100000000 ++ le 8 64 ++
    le 8 (64 + 56 * ph) ++ le 4 0 ++ le 2 64 ++ le 2 56 ++ le 2 ph ++ le 2 64 ++ le 2 sh ++ le 2 0

def loadBytes (offset vaddr filesz memsz : Nat) : List (BitVec 8) :=
  le 4 1 ++ le 4 7 ++ le 8 offset ++ le 8 vaddr ++ le 8 vaddr ++ le 8 filesz ++ le 8 memsz ++ le 8 4096

def nobitsBytes (addr size : Nat) : List (BitVec 8) :=
  le 4 0 ++ le 4 8 ++ le 8 3 ++ le 8 addr ++ le 8 0 ++ le 8 size ++ le 4 0 ++ le 4 0 ++ le 8 8 ++ le 8 0

def ofBytes (l : List (BitVec 8)) : ElfLoader := ⟨fun a => l.getD a.toNat 0, BitVec.ofNat 64 l.length⟩

/-- An image cut off after its header: the program header is read behind its end, and `Deploy` succeeds. -/
theorem truncated_image_read :
    let e := ofBytes (ehdrBytes 1 0)
    let mem : Bytes := fun _ => 0
    e.len = 64 ∧ .phdr ⟨64⟩ ∈ (e.deploy mem).2.trace ∧ ¬ (Access.phdr ⟨64⟩).Inside e.len.toNat ∧ ¬ e.ImageInside ∧
      (e.deploy mem).1 = true ∧ ¬ e.ReadsInside mem := by
  intro e mem
  have hlen : e.len = 64 := by decide +kernel
  have hhead : e.headerOk = true := by decide +kernel
  have hphdrs : e.phdrs = [⟨64⟩] := by decide +kernel
  have hout : ¬ (Access.phdr ⟨64⟩).Inside e.len.toNat := by
    rw [hlen]
    unfold Access.Inside
    decide
  have hread : .phdr ⟨64⟩ ∈ (e.deploy mem).2.trace := by
    rw [e.deploy_trace, hphdrs, hhead]
    simp [Lib.upto, ElfLoader.phdrTouched, touched]
  have hok : (e.deploy mem).1 = true := by
    rw [e.deploy_eq_true_iff, hphdrs]
    decide +kernel
  exact ⟨hlen, hread, hout, fun h => hout (h.phdr ⟨64⟩ (by simp [hphdrs])), hok, fun h => hout (h.deploy _ hread)⟩

/-! ## Tables -/

section Table
variable {num : BitVec 16} {off : BitVec 64} {entsize : BitVec 16}

/-- No entry of the table is at offset 0, the product is an `int`, and no offset is beyond 64 bits. -/
def TableExact (num : BitVec 16) (off : BitVec 64) (entsize : BitVec 16) : Prop :=
  num = 0 ∨ off ≠ 0 ∧ (num.toNat - 1) * entsize.toNat < 2 ^ 31 ∧
    off.toNat + (num.toNat - 1) * entsize.toNat < 2 ^ 64

def exactOffset (off : BitVec 64) (entsize : BitVec 16) (i : Nat) : Nat := off.toNat + i * entsize.toNat

/-- The product of two 16-bit numbers fits in 32 bits, but not in an `int`. -/
theorem toNat_entryOffset {i : Nat} (hi : i < num.toNat) :
    (entryOffset num off entsize i).toNat =
      (off.toNat + (i * entsize.toNat + if 2 ^ 31 ≤ i * entsize.toNat then 2 ^ 64 - 2 ^ 32 else 0)) % 2 ^ 64 := by
  have hnum := num.isLt
  have hsize := entsize.isLt
  have hprod : entsize.toNat * i ≤ 65535 * 65535 := Nat.mul_le_mul (by omega) (by omega)
  have hmul : (entsize.setWidth 32 * BitVec.ofNat 32 i).toNat = i * entsize.toNat := by
    rw [BitVec.toNat_mul, BitVec.toNat_setWidth, BitVec.toNat_ofNat, Nat.mod_eq_of_lt (show entsize.toNat < 2 ^ 32 by omega),
      Nat.mod_eq_of_lt (show i < 2 ^ 32 by omega), Nat.mod_eq_of_lt (by omega), Nat.mul_comm]
  rw [entryOffset, if_pos hi, BitVec.toNat_add, BitVec.toNat_signExtend, BitVec.toNat_setWidth, BitVec.msb_eq_decide, hmul,
    Nat.mod_eq_of_lt (show i * entsize.toNat < 2 ^ 64 by rw [Nat.mul_comm]; omega)]
  simp only [decide_eq_true_eq]

theorem entryOffset_exact_iff {i : Nat} (hi : i < num.toNat) :
    (entryOffset num off entsize i).toNat = exactOffset off entsize i ↔
      i * entsize.toNat < 2 ^ 31 ∧ off.toNat + i * entsize.toNat < 2 ^ 64 := by
  have hnum := num.isLt
  have hsize := entsize.isLt
  have hoff := off.isLt
  have hprod : i * entsize.toNat ≤ 65535 * 65535 := Nat.mul_le_mul (by omega) (by omega)
  rw [toNat_entryOffset hi, exactOffset]
  generalize i * entsize.toNat = x at hprod ⊢
  split <;> omega

theorem TableExact.bounds (h : TableExact num off entsize) {i : Nat} (hi : i < num.toNat) :
    off ≠ 0 ∧ i * entsize.toNat < 2 ^ 31 ∧ off.toNat + i * entsize.toNat < 2 ^ 64 := by
  rcases h with h0 | ⟨hne, hprod, hsum⟩
  · rw [h0] at hi
    exact absurd hi (Nat.not_lt_zero i)
  · have hle : i * entsize.toNat ≤ (num.toNat - 1) * entsize.toNat := Nat.mul_le_mul_right _ (by omega)
    exact ⟨hne, by omega, by omega⟩

theorem TableExact.toNat_entryOffset (h : TableExact num off entsize) {i : Nat} (hi : i < num.toNat) :
    (entryOffset num off entsize i).toNat = exactOffset off entsize i :=
  (entryOffset_exact_iff hi).mpr (h.bounds hi).2

theorem TableExact.entryOffset_ne_zero (h : TableExact num off entsize) {i : Nat} (hi : i < num.toNat) :
    entryOffset num off entsize i ≠ 0 := by
  intro h0
  have heq := h.toNat_entryOffset hi
  rw [h0, exactOffset] at heq
  apply (h.bounds hi).1
  apply BitVec.eq_of_toNat_eq
  exact Nat.eq_zero_of_add_eq_zero_right heq.symm

theorem TableExact.entryOffset_eq (h : TableExact num off entsize) {i : Nat} (hi : i < num.toNat) :
    entryOffset num off entsize i = off + BitVec.ofNat 64 (i * entsize.toNat) := by
  obtain ⟨-, hprod, hsum⟩ := h.bounds hi
  apply BitVec.eq_of_toNat_eq
  rw [h.toNat_entryOffset hi, BitVec.toNat_add, BitVec.toNat_ofNat, Nat.mod_eq_of_lt (show i * entsize.toNat < 2 ^ 64 by omega),
    Nat.mod_eq_of_lt hsum, exactOffset]

variable {α : Type} (mk : BitVec 64 → α) {next : Nat → Option α}

theorem TableExact.entries_eq (h : TableExact num off entsize)
    (hnext : ∀ i, next i = if entryOffset num off entsize i = 0 then none else some (mk (entryOffset num off entsize i))) :
    Lib.entries next num.toNat 0 = (List.range num.toNat).map fun i => mk (off + BitVec.ofNat 64 (i * entsize.toNat)) := by
  rw [List.range_eq_range']
  apply Lib.entries_eq_map
  intro i _ hi
  have hi' : i < num.toNat := by omega
  rw [hnext, if_neg (h.entryOffset_ne_zero hi'), h.entryOffset_eq hi']

theorem entries_exact_iff {raw : α → BitVec 64} (hraw : ∀ o, raw (mk o) = o)
    (hnext : ∀ i, next i = if entryOffset num off entsize i = 0 then none else some (mk (entryOffset num off entsize i))) :
    (Lib.entries next num.toNat 0).map (fun x => (raw x).toNat) = (List.range num.toNat).map (exactOffset off entsize) ↔
      TableExact num off entsize := by
  constructor
  · intro h
    have hentry : ∀ i < num.toNat, entryOffset num off entsize i ≠ 0 ∧
        (entryOffset num off entsize i).toNat = exactOffset off entsize i := by
      intro i hi
      have hget := congrArg (·[i]?) h
      simp only [List.getElem?_map, List.getElem?_range hi, Option.map_some, Option.map_eq_some_iff] at hget
      obtain ⟨x, hx, hoff⟩ := hget
      have hx := Lib.next_of_getElem?_entries hx
      rw [Nat.zero_add, hnext] at hx
      split at hx
      · cases hx
      · rename_i hne
        cases hx
        rw [hraw] at hoff
        exact ⟨hne, hoff⟩
    by_cases hnum : num = 0
    · exact .inl hnum
    · -- the first entry is not at 0, and the last one is the one that overflows first
      have hpos : 0 < num.toNat := Nat.pos_of_ne_zero fun h0 => hnum (BitVec.eq_of_toNat_eq h0)
      obtain ⟨hfirst, hoff⟩ := hentry 0 hpos
      obtain ⟨-, hlast⟩ := hentry (num.toNat - 1) (by omega)
      refine .inr ⟨?_, (entryOffset_exact_iff (by omega)).mp hlast⟩
      rintro rfl
      apply hfirst
      apply BitVec.eq_of_toNat_eq
      rw [hoff, exactOffset]
      simp
  · intro h
    rw [h.entries_eq mk hnext, List.map_map]
    apply List.map_congr_left
    intro i hi
    have hi' := List.mem_range.mp hi
    rw [Function.comp_apply, hraw, ← h.entryOffset_eq hi', h.toNat_entryOffset hi']

end Table

namespace ElfLoader

variable (e : ElfLoader)

def phdrAt (i : Nat) : Phdr := ⟨e.ePhoff + BitVec.ofNat 64 (i * e.ePhentsize.toNat)⟩

def shdrAt (i : Nat) : Shdr := ⟨e.eShoff + BitVec.ofNat 64 (i * e.eShentsize.toNat)⟩

def PhdrsExact : Prop := TableExact e.ePhnum e.ePhoff e.ePhentsize

def ShdrsExact : Prop := TableExact e.eShnum e.eShoff e.eShentsize

theorem PhdrsExact.phdrs_eq {e : ElfLoader} (h : e.PhdrsExact) : e.phdrs = (List.range e.ePhnum.toNat).map e.phdrAt :=
  TableExact.entries_eq Phdr.mk h fun _ => rfl

theorem ShdrsExact.shdrs_eq {e : ElfLoader} (h : e.ShdrsExact) : e.shdrs = (List.range e.eShnum.toNat).map e.shdrAt :=
  TableExact.entries_eq Shdr.mk h fun _ => rfl

end ElfLoader

def Access.phdrOffset : Access → Option Nat
  | .phdr p => some p.raw.toNat
  | _ => none

def Access.shdrOffset : Access → Option Nat
  | .shdr p => some p.raw.toNat
  | _ => none

namespace ElfLoader

variable (e : ElfLoader)

/-- Both loops end; if `Deploy` succeeds they have examined the entries of their tables, in order and at the offsets that
the header gives. -/
structure WalksTables (mem : Bytes) : Prop where
  ends : (∃ i ≤ e.ePhnum.toNat, e.nextPhdr i = none) ∧ ∃ i ≤ e.eShnum.toNat, e.nextShdr i = none
  phdr : (e.deploy mem).1 = true → (e.deploy mem).2.trace.filterMap Access.phdrOffset =
    (List.range e.ePhnum.toNat).map fun i => e.ePhoff.toNat + i * e.ePhentsize.toNat
  shdr : (e.deploy mem).1 = true → (e.deploy mem).2.trace.filterMap Access.shdrOffset =
    (List.range e.eShnum.toNat).map fun i => e.eShoff.toNat + i * e.eShentsize.toNat

/-- The headers that a successful `Deploy` examines are the entries it finds. -/
theorem deploy_headers {mem : Bytes} (hok : (e.deploy mem).1 = true) :
    (e.deploy mem).2.trace.filterMap Access.phdrOffset = e.phdrs.map (fun p => p.raw.toNat) ∧
      (e.deploy mem).2.trace.filterMap Access.shdrOffset = e.shdrs.map fun p => p.raw.toNat := by
  obtain ⟨hh, hp, hs⟩ := (e.deploy_eq_true_iff mem).mp hok
  have hpp (p : Phdr) : (e.phdrTouched p).filterMap Access.phdrOffset = [p.raw.toNat] :=
    filterMap_touched _ _ _ (fun _ => rfl) p
  have hps (p : Shdr) : (e.shdrTouched p).filterMap Access.phdrOffset = [] := filterMap_touched _ _ _ (fun _ => rfl) p
  have hsp (p : Phdr) : (e.phdrTouched p).filterMap Access.shdrOffset = [] := filterMap_touched _ _ _ (fun _ => rfl) p
  have hss (p : Shdr) : (e.shdrTouched p).filterMap Access.shdrOffset = [p.raw.toNat] :=
    filterMap_touched _ _ _ (fun _ => rfl) p
  rw [e.deploy_trace, if_pos hh, if_pos hp, Lib.upto_eq_self (List.all_eq_true.mp hp),
    Lib.upto_eq_self (List.all_eq_true.mp hs)]
  constructor
  · rw [List.filterMap_cons_none rfl, List.filterMap_append, List.filterMap_flatMap, List.filterMap_flatMap]
    simp [hpp, hps, List.map_eq_flatMap]
  · rw [List.filterMap_cons_none rfl, List.filterMap_append, List.filterMap_flatMap, List.filterMap_flatMap]
    simp [hsp, hss, List.map_eq_flatMap]

/-- **The tables are walked completely** iff they are exact, or `Deploy` fails. -/
theorem deploy_walks_iff (mem : Bytes) :
    e.WalksTables mem ↔ (e.headerOk = true → e.ranges.all accepts = true → e.PhdrsExact ∧ e.ShdrsExact) := by
  have hverdict : (e.deploy mem).1 = true ↔ e.headerOk = true ∧ e.ranges.all accepts = true := by
    rw [e.deploy_accepts, Bool.and_eq_true]
  have hphdr : e.phdrs.map (fun p => p.raw.toNat) = (List.range e.ePhnum.toNat).map (exactOffset e.ePhoff e.ePhentsize) ↔
      e.PhdrsExact := entries_exact_iff Phdr.mk (fun _ => rfl) fun _ => rfl
  have hshdr : e.shdrs.map (fun p => p.raw.toNat) = (List.range e.eShnum.toNat).map (exactOffset e.eShoff e.eShentsize) ↔
      e.ShdrsExact := entries_exact_iff Shdr.mk (fun _ => rfl) fun _ => rfl
  constructor
  · intro h hh hr
    have hok := hverdict.mpr ⟨hh, hr⟩
    obtain ⟨htp, hts⟩ := e.deploy_headers hok
    exact ⟨hphdr.mp (htp.symm.trans (h.phdr hok)), hshdr.mp (hts.symm.trans (h.shdr hok))⟩
  · intro h
    refine ⟨⟨⟨_, le_refl _, e.nextPhdr_none _ (le_refl _)⟩, ⟨_, le_refl _, e.nextShdr_none _ (le_refl _)⟩⟩, ?_, ?_⟩
    · intro hok
      obtain ⟨hh, hr⟩ := hverdict.mp hok
      exact (e.deploy_headers hok).1.trans (hphdr.mpr (h hh hr).1)
    · intro hok
      obtain ⟨hh, hr⟩ := hverdict.mp hok
      exact (e.deploy_headers hok).2.trans (hshdr.mpr (h hh hr).2)

end ElfLoader

/-- Two program headers of 64 bytes from offset 0 on, the first of them the ELF header itself, the second a segment. -/
def zeroOffsetImage : ElfLoader :=
  ofBytes (((ehdrBytes 2 0).set 32 0).set 54 64 ++ loadBytes 0 0x110000000 16 16)

/-- The offset of the first is taken for the end of the table: `Deploy` succeeds and has loaded nothing. -/
theorem zero_offset_ends_walk :
    let e := zeroOffsetImage
    let mem : Bytes := fun _ => 0
    e.ePhnum = 2 ∧ e.ePhoff = 0 ∧ e.ePhentsize = 64 ∧ e.pType ⟨64⟩ = PT_LOAD ∧ (e.deploy mem).1 = true ∧
      (e.deploy mem).2.trace = [.ehdr] ∧ ¬ e.WalksTables mem := by
  intro e mem
  have hnum : e.ePhnum = 2 := by decide +kernel
  have hhead : e.headerOk = true := by decide +kernel
  have hphdrs : e.phdrs = [] := by decide +kernel
  have hshdrs : e.shdrs = [] := by decide +kernel
  have hok : (e.deploy mem).1 = true := by
    rw [e.deploy_eq_true_iff, hhead, hphdrs, hshdrs]
    decide
  have htrace : (e.deploy mem).2.trace = [.ehdr] := by
    rw [e.deploy_trace, hhead, hphdrs, hshdrs]
    rfl
  refine ⟨hnum, by decide +kernel, by decide +kernel, by decide +kernel, hok, htrace, fun h => ?_⟩
  have hlen := congrArg List.length (h.phdr hok)
  rw [htrace, List.length_map, List.length_range, hnum] at hlen
  exact absurd hlen (by decide)

end Toshokan.Hakase
