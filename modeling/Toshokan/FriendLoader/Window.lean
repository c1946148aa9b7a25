import Mathlib.Data.List.Basic
import Toshokan.Hakase.Process
import Toshokan.Lib.Sched

/-!
# `/dev/friend_mem`: what its `mmap` gives away

* `UserVma` : a `vma` as the system call makes it; `Fits` : its range of the device lies within friend memory;
* `memdeviceMmap_eq` : the checks of `memdevice_mmap` on 64-bit values are that one;
* `Remap.entries` : the pages that `remap_pfn_range` enters, with their frames; `map_remap_page` : they are what the process
  then sees;
* `MmapCall.expose` : one `mmap`, of which `remap_pfn_range` may do a part only; `memdevice_window` : the window is exact,
  and no sequence of `mmap`s exposes another frame.
-/

namespace Toshokan.FriendLoader
open Hakase (Process)

theorem toNat_mem_size : DEPLOY_PHYS_MEM_SIZE.toNat = 0x40000000 := rfl

/-- A `vma` that `mmap(2)` makes: page-aligned, not empty, below the end of user space, at an offset of less than 2^64
bytes. -/
structure UserVma extends Vma where
  start_lt : vmStart.toNat < vmEnd.toNat
  end_le : vmEnd.toNat ≤ 2 ^ 47
  start_aligned : vmStart.toNat % 4096 = 0
  end_aligned : vmEnd.toNat % 4096 = 0
  pgoff_lt : vmPgoff.toNat < 2 ^ 52

namespace UserVma

variable (v : UserVma)

def size : Nat := v.vmEnd.toNat - v.vmStart.toNat

def pages : Nat := v.size / 4096

/-- Offset and size, added without wrap-around, are at most the size of friend memory. -/
def Fits : Prop := v.vmPgoff.toNat * 4096 + v.size ≤ DEPLOY_PHYS_MEM_SIZE.toNat

instance : Decidable v.Fits := inferInstanceAs (Decidable (_ ≤ _))

theorem toNat_size : (v.vmEnd - v.vmStart).toNat = v.size := by
  have hlt := v.start_lt
  have hend := v.vmEnd.isLt
  unfold size
  rw [BitVec.toNat_sub]
  omega

theorem toNat_physStart : (v.vmPgoff <<< PAGE_SHIFT).toNat = v.vmPgoff.toNat * 4096 := by
  have hlt := v.pgoff_lt
  rw [BitVec.toNat_shiftLeft, PAGE_SHIFT, Nat.shiftLeft_eq]
  omega

theorem size_bounds : 0 < v.size ∧ v.size ≤ 2 ^ 47 := by
  have hlt := v.start_lt
  have hle := v.end_le
  unfold size
  omega

theorem toNat_physEnd :
    (v.vmPgoff <<< PAGE_SHIFT + (v.vmEnd - v.vmStart)).toNat = (v.vmPgoff.toNat * 4096 + v.size) % 2 ^ 64 := by
  rw [BitVec.toNat_add, toNat_physStart, toNat_size]

/-- The first check is passed unless the range goes beyond address 2^64. -/
theorem wraps_iff :
    v.vmPgoff <<< PAGE_SHIFT + (v.vmEnd - v.vmStart) - 1 < v.vmPgoff <<< PAGE_SHIFT ↔
      2 ^ 64 < v.vmPgoff.toNat * 4096 + v.size := by
  have hlt := v.pgoff_lt
  have hsize := v.size_bounds
  rw [BitVec.lt_def, BitVec.toNat_sub, toNat_physEnd, toNat_physStart, show (1 : BitVec 64).toNat = 1 from rfl]
  omega

/-- Then the second one is passed if the range lies within friend memory. -/
theorem outside_iff (h : v.vmPgoff.toNat * 4096 + v.size ≤ 2 ^ 64) :
    (v.vmPgoff <<< PAGE_SHIFT > DEPLOY_PHYS_MEM_SIZE ∨
      v.vmPgoff <<< PAGE_SHIFT + (v.vmEnd - v.vmStart) > DEPLOY_PHYS_MEM_SIZE) ↔ ¬ v.Fits := by
  have hsize := v.size_bounds
  unfold Fits
  rw [gt_iff_lt, gt_iff_lt, BitVec.lt_def, BitVec.lt_def, toNat_physEnd, toNat_physStart, toNat_mem_size]
  omega

end UserVma

/-- **The checks of `memdevice_mmap`.** -/
theorem memdeviceMmap_eq (v : UserVma) (ok : Bool) :
    memdeviceMmap v.toVma ok =
      if v.Fits then
        remapPfnRange v.toVma
          ⟨v.vmStart, v.vmPgoff + (DEPLOY_PHYS_ADDR_START >>> PAGE_SHIFT), v.vmEnd - v.vmStart⟩ ok
      else ⟨-EINVAL, v.toVma, none⟩ := by
  unfold memdeviceMmap
  dsimp only
  by_cases hw : 2 ^ 64 < v.vmPgoff.toNat * 4096 + v.size
  · have hno : ¬ v.Fits := by
      unfold UserVma.Fits
      rw [toNat_mem_size]
      omega
    rw [if_pos (v.wraps_iff.mpr hw), if_neg hno]
  · have hout := v.outside_iff (by omega)
    rw [if_neg (v.wraps_iff.not.mpr hw)]
    by_cases hf : v.Fits
    · rw [if_neg (by rw [hout]; exact not_not_intro hf), if_pos hf]
    · rw [if_pos (hout.mpr hf), if_neg hf]

/-! ## Pages and frames -/

namespace Remap

variable (r : Remap)

def page (i : Nat) : BitVec 64 := r.addr + BitVec.ofNat 64 (i * 4096)

def frame (i : Nat) : BitVec 64 := r.pfn + BitVec.ofNat 64 i

/-- The entries `remap_pfn_range` makes, in order. -/
def entries : List (BitVec 64 × BitVec 64) := (List.range (r.size.toNat / 4096)).map fun i => (r.page i, r.frame i)

/-- The process sees byte `o` of the frame at byte `o` of the page. -/
theorem map_remap_page (p : Process) {i o : Nat} (hi : i < r.size.toNat / 4096) (ho : o < 4096) :
    (p.remap r).map (r.page i + BitVec.ofNat 64 o) = some (r.frame i <<< PAGE_SHIFT + BitVec.ofNat 64 o) := by
  have hlin := p.linear_remap r (i * 4096 + o) (by omega)
  have hpage : r.page i + BitVec.ofNat 64 o = r.addr + BitVec.ofNat 64 (i * 4096 + o) := by
    rw [page, BitVec.ofNat_add, BitVec.add_assoc]
  have hframe : r.frame i <<< PAGE_SHIFT + BitVec.ofNat 64 o =
      r.pfn <<< PAGE_SHIFT + BitVec.ofNat 64 (i * 4096 + o) := by
    apply BitVec.eq_of_toNat_eq
    simp only [frame, PAGE_SHIFT, BitVec.toNat_add, BitVec.toNat_shiftLeft, BitVec.toNat_ofNat, Nat.shiftLeft_eq]
    omega
  rw [hpage, hframe]
  exact hlin

end Remap

def InWindow (f : BitVec 64) : Prop :=
  DEPLOY_PHYS_ADDR_START.toNat ≤ f.toNat * 4096 ∧ (f.toNat + 1) * 4096 ≤ DEPLOY_PHYS_ADDR_END.toNat

namespace UserVma

variable (v : UserVma)

/-- The call that `memdevice_mmap` makes for it. -/
def call : Remap := ⟨v.vmStart, v.vmPgoff + (DEPLOY_PHYS_ADDR_START >>> PAGE_SHIFT), v.vmEnd - v.vmStart⟩

theorem entries_call : v.call.entries = (List.range v.pages).map fun i => (v.call.page i, v.call.frame i) := by
  unfold Remap.entries pages
  rw [← v.toNat_size]
  rfl

variable {v}

theorem toNat_frame (h : v.Fits) {i : Nat} (hi : i < v.pages) :
    (v.call.frame i).toNat = (DEPLOY_PHYS_ADDR_START >>> PAGE_SHIFT).toNat + v.vmPgoff.toNat + i := by
  have hsize := v.size_bounds
  unfold Fits at h
  unfold pages at hi
  rw [toNat_mem_size] at h
  rw [Remap.frame, call, BitVec.toNat_add, BitVec.toNat_add, BitVec.toNat_ofNat,
    show (DEPLOY_PHYS_ADDR_START >>> PAGE_SHIFT).toNat = 0x100000 from rfl]
  omega

theorem inWindow_frame (h : v.Fits) {i : Nat} (hi : i < v.pages) : InWindow (v.call.frame i) := by
  unfold InWindow
  rw [toNat_frame h hi, toNat_start, toNat_end, show (DEPLOY_PHYS_ADDR_START >>> PAGE_SHIFT).toNat = 0x100000 from rfl]
  unfold Fits at h
  unfold pages at hi
  rw [toNat_mem_size] at h
  omega

theorem toNat_byte (h : v.Fits) {i o : Nat} (hi : i < v.pages) (ho : o < 4096) :
    (v.call.frame i <<< PAGE_SHIFT + BitVec.ofNat 64 o).toNat =
      ((DEPLOY_PHYS_ADDR_START >>> PAGE_SHIFT).toNat + v.vmPgoff.toNat + i) * 4096 + o := by
  have hwin := inWindow_frame h hi
  unfold InWindow at hwin
  rw [toNat_end] at hwin
  rw [← toNat_frame h hi, BitVec.toNat_add, BitVec.toNat_shiftLeft, BitVec.toNat_ofNat, PAGE_SHIFT, Nat.shiftLeft_eq]
  omega

end UserVma

/-! ## Sequences of `mmap` -/

/-- An `mmap` of the device: if `remap_pfn_range` fails, it has made `done` entries before. -/
structure MmapCall where
  vma : UserVma
  ok : Bool
  done : Nat

/-- The entries made so far, after another `mmap`. -/
def MmapCall.expose (es : List (BitVec 64 × BitVec 64)) (c : MmapCall) : List (BitVec 64 × BitVec 64) :=
  match (memdeviceMmap c.vma.toVma c.ok).call with
  | none => es
  | some r => es ++ if c.ok = true then r.entries else r.entries.take c.done

theorem mem_expose {es : List (BitVec 64 × BitVec 64)} {c : MmapCall} {e : BitVec 64 × BitVec 64}
    (he : e ∈ MmapCall.expose es c) : e ∈ es ∨ c.vma.Fits ∧ e ∈ c.vma.call.entries := by
  unfold MmapCall.expose at he
  rw [memdeviceMmap_eq] at he
  by_cases hf : c.vma.Fits
  · rw [if_pos hf] at he
    rcases List.mem_append.mp he with he | he
    · exact .inl he
    · refine .inr ⟨hf, ?_⟩
      split at he
      · exact he
      · exact List.mem_of_mem_take he
  · rw [if_neg hf] at he
    exact .inl he

/-- What `memdevice_mmap` makes of a `vma`. -/
structure Exact (v : UserVma) (ok : Bool) : Prop where
  /-- `remap_pfn_range` is reached iff offset and size stay within friend memory. -/
  reached : (memdeviceMmap v.toVma ok).call.isSome = true ↔ v.Fits
  refused : ¬ v.Fits → (memdeviceMmap v.toVma ok).ret = -EINVAL ∧ (memdeviceMmap v.toVma ok).vma = v.toVma
  /-- Page `i` gets frame `(DEPLOY_PHYS_ADDR_START >> 12) + vm_pgoff + i`, a frame of friend memory. -/
  mapped : ∀ r, (memdeviceMmap v.toVma ok).call = some r → r.entries.length = v.pages ∧
    ∀ i < v.pages, ∃ f, r.entries[i]? = some (v.vmStart + BitVec.ofNat 64 (i * 4096), f) ∧
      f.toNat = (DEPLOY_PHYS_ADDR_START >>> PAGE_SHIFT).toNat + v.vmPgoff.toNat + i ∧ InWindow f
  /-- Byte `o` of page `i` is then byte `o` of that frame for the process. -/
  seen : ∀ r, (memdeviceMmap v.toVma ok).call = some r → ∀ (p : Process), ∀ i < v.pages, ∀ o < 4096,
    ∃ a, (p.remap r).map (v.vmStart + BitVec.ofNat 64 (i * 4096) + BitVec.ofNat 64 o) = some a ∧
      a.toNat = ((DEPLOY_PHYS_ADDR_START >>> PAGE_SHIFT).toNat + v.vmPgoff.toNat + i) * 4096 + o
  /-- The check for wrap-around does not refuse a range that stays within. -/
  unwrapped : v.Fits → ¬ v.vmPgoff <<< PAGE_SHIFT + (v.vmEnd - v.vmStart) - 1 < v.vmPgoff <<< PAGE_SHIFT

theorem exact_of_fits {v : UserVma} (hf : v.Fits) (ok : Bool) : Exact v ok := by
  have heq : memdeviceMmap v.toVma ok = remapPfnRange v.toVma v.call ok := by
    rw [memdeviceMmap_eq, if_pos hf]
    rfl
  refine ⟨?_, fun h => absurd hf h, fun r hr => ?_, fun r hr p i hi o ho => ?_, fun _ => ?_⟩
  · rw [heq]
    exact ⟨fun _ => hf, fun _ => rfl⟩
  · rw [heq] at hr
    cases hr
    rw [v.entries_call]
    refine ⟨by rw [List.length_map, List.length_range], fun i hi => ⟨v.call.frame i, ?_, ?_⟩⟩
    · rw [List.getElem?_map, List.getElem?_range hi]
      rfl
    · exact ⟨UserVma.toNat_frame hf hi, UserVma.inWindow_frame hf hi⟩
  · rw [heq] at hr
    cases hr
    have hi' : i < v.call.size.toNat / 4096 := by
      rw [show v.call.size.toNat = v.size from v.toNat_size]
      exact hi
    exact ⟨_, v.call.map_remap_page p hi' ho, UserVma.toNat_byte hf hi ho⟩
  · rw [v.wraps_iff]
    unfold UserVma.Fits at hf
    rw [toNat_mem_size] at hf
    omega

theorem exact_of_not_fits {v : UserVma} (hf : ¬ v.Fits) (ok : Bool) : Exact v ok := by
  have heq : memdeviceMmap v.toVma ok = ⟨-EINVAL, v.toVma, none⟩ := by
    rw [memdeviceMmap_eq, if_neg hf]
  have hnone : ∀ r, (memdeviceMmap v.toVma ok).call ≠ some r := by
    intro r hr
    rw [heq] at hr
    cases hr
  refine ⟨?_, fun _ => ?_, fun r hr => absurd hr (hnone r), fun r hr => absurd hr (hnone r), fun h => absurd h hf⟩
  · rw [heq]
    exact iff_of_false Bool.false_ne_true hf
  · rw [heq]
    exact ⟨rfl, rfl⟩

/-- **The window of `/dev/friend_mem` is exact**, and every entry that any sequence of `mmap`s makes is for a frame of
friend memory. -/
theorem memdevice_window :
    (∀ (v : UserVma) (ok : Bool), Exact v ok) ∧
    ∀ cs : List MmapCall, ∀ e ∈ Lib.run MmapCall.expose [] cs, InWindow e.2 := by
  constructor
  · intro v ok
    by_cases hf : v.Fits
    · exact exact_of_fits hf ok
    · exact exact_of_not_fits hf ok
  · refine Lib.run_induct MmapCall.expose (P := fun es => ∀ e ∈ es, InWindow e.2)
      (fun e he => absurd he List.not_mem_nil) fun es c ih e he => ?_
    rcases mem_expose he with he | ⟨hf, he⟩
    · exact ih e he
    · rw [c.vma.entries_call] at he
      obtain ⟨i, hi, rfl⟩ := List.mem_map.mp he
      exact UserVma.inWindow_frame hf (List.mem_range.mp hi)

/-- The `vma` of `mmap_friend_mem` takes the whole window. -/
example :
    let v : UserVma := ⟨⟨DEPLOY_PHYS_ADDR_START, DEPLOY_PHYS_ADDR_END, 0, false⟩, by decide, by decide, by decide,
      by decide, by decide⟩
    v.Fits ∧ v.pages = 0x40000 := by
  decide

end Toshokan.FriendLoader
