import Toshokan.Lib.Paging
import Toshokan.Hakase.Loader16

/-!
# The initial page tables

What the walk from `INITIAL_PML4T` does in the memory `Loader16.installed`.

* `Entries` : the entries that are written, `entries_install`; `read_other` : the others stay;
* `walk_low`, `walk_friend` : the first 2MB and friend memory are mapped to themselves;
* `same_memory` : hakase and friend see the same memory at the same address.
-/

namespace Toshokan.Hakase
open Lib Lib.Mmu
open Lib (Bytes Range)
open FriendLoader

namespace Tables

variable (T : Tables)

/-! ## The entries of the four tables -/

def pages : List (BitVec 64) := [INITIAL_PML4T, T.pdpt, T.pd1, T.pd2]

variable {T}

theorem pages_bounds {t : BitVec 64} (ht : t ∈ T.pages) :
    t.toNat % 4096 = 0 ∧ 0x71000 ≤ t.toNat ∧ t.toNat < 0x140000000 := by
  rcases List.mem_cons.mp ht with rfl | ht
  · decide
  · have hin := inFriend_iff.mp (T.inFriend t ht)
    exact ⟨T.aligned t ht, by omega, hin.2⟩

theorem pages_nodup : T.pages.Nodup := by
  refine List.nodup_cons.mpr ⟨fun hmem => ?_, T.nodup⟩
  exact absurd (T.inFriend _ hmem) (by decide)

theorem toNat_slot {t : BitVec 64} (ht : t ∈ T.pages) {i : Nat} (hi : i < 512) :
    (slot t i).toNat = t.toNat + 8 * i := by
  obtain ⟨-, -, hlt⟩ := pages_bounds ht
  rw [slot, BitVec.toNat_add, BitVec.toNat_ofNat]
  omega

theorem slot_inj {t t' : BitVec 64} (ht : t ∈ T.pages) (ht' : t' ∈ T.pages) {i j : Nat} (hi : i < 512) (hj : j < 512)
    (h : slot t i = slot t' j) : t = t' ∧ i = j := by
  obtain ⟨hal, -, -⟩ := pages_bounds ht
  obtain ⟨hal', -, -⟩ := pages_bounds ht'
  have heq := congrArg BitVec.toNat h
  rw [toNat_slot ht hi, toNat_slot ht' hj] at heq
  exact ⟨BitVec.eq_of_toNat_eq (by omega), by omega⟩

theorem mem_pages : INITIAL_PML4T ∈ T.pages ∧ T.pdpt ∈ T.pages ∧ T.pd1 ∈ T.pages ∧ T.pd2 ∈ T.pages := by
  simp [pages]

theorem mem_cells {c : Cell} : c ∈ T.cells ↔
    c = ⟨INITIAL_PML4T, 0, T.pdpt ||| kPageTableEntryFlags⟩ ∨ c = ⟨T.pdpt, 0, T.pd1 ||| kPageTableEntryFlags⟩ ∨
    c = ⟨T.pdpt, 4, T.pd2 ||| kPageTableEntryFlags⟩ ∨ c = ⟨T.pd1, 0, 0 ||| kHugePageTableEntryFlags⟩ ∨
    ∃ i < 512, T.friendCell i = c := by
  rw [cells, List.mem_append, List.mem_map]
  simp only [List.mem_cons, List.not_mem_nil, or_false, List.mem_range, or_assoc]

theorem cell_bounds {c : Cell} (hc : c ∈ T.cells) : c.page ∈ T.pages ∧ c.index < 512 := by
  obtain ⟨hroot, hpdpt, hpd1, hpd2⟩ := T.mem_pages
  rcases mem_cells.mp hc with rfl | rfl | rfl | rfl | ⟨i, hi, rfl⟩
  · exact ⟨hroot, by simp⟩
  · exact ⟨hpdpt, by simp⟩
  · exact ⟨hpdpt, by simp⟩
  · exact ⟨hpd1, by simp⟩
  · exact ⟨hpd2, hi⟩

theorem write_aligned {w : BitVec 64 × BitVec 64} (hw : w ∈ T.cells.map Cell.write) : w.1.toNat % 8 = 0 := by
  obtain ⟨c, hc, rfl⟩ := List.mem_map.mp hw
  obtain ⟨hpage, hindex⟩ := cell_bounds hc
  have hal := (pages_bounds hpage).1
  rw [Cell.write, toNat_slot hpage hindex]
  omega

theorem keys_nodup : (T.cells.map fun c => (c.page, c.index)).Nodup := by
  have hnd := T.pages_nodup
  simp only [pages, List.nodup_cons, List.mem_cons, List.not_mem_nil, not_or, or_false] at hnd
  obtain ⟨⟨h01, h02, h03⟩, ⟨h12, h13⟩, h23, -⟩ := hnd
  rw [cells, List.map_append, List.map_map, List.nodup_append]
  refine ⟨?_, ?_, ?_⟩
  · simp [h01, h02, h12]
  · refine List.Nodup.map_on ?_ List.nodup_range
    intro i _ j _ h
    exact congrArg Prod.snd h
  · intro x hx y hy hxy
    obtain ⟨i, -, rfl⟩ := List.mem_map.mp hy
    have hpage : x.1 = T.pd2 := congrArg Prod.fst hxy
    simp only [List.map_cons, List.map_nil, List.mem_cons, List.not_mem_nil, or_false] at hx
    rcases hx with rfl | rfl | rfl | rfl
    · exact h03 hpage
    · exact h13 hpage
    · exact h13 hpage
    · exact h23 hpage

theorem writes_nodup : ((T.cells.map Cell.write).map Prod.fst).Nodup := by
  rw [List.map_map]
  refine List.Nodup.map_on ?_ (List.Nodup.of_map _ T.keys_nodup)
  intro c hc c' hc' h
  obtain ⟨hpage, hindex⟩ := cell_bounds hc
  obtain ⟨hpage', hindex'⟩ := cell_bounds hc'
  obtain ⟨he, hi⟩ := slot_inj hpage hpage' hindex hindex' h
  exact List.inj_on_of_nodup_map T.keys_nodup hc hc' (Prod.ext he hi)

theorem index_of_page {c : Cell} (hc : c ∈ T.cells) :
    (c.page = INITIAL_PML4T → c.index = 0) ∧ (c.page = T.pdpt → c.index = 0 ∨ c.index = 4) ∧
      (c.page = T.pd1 → c.index = 0) := by
  have hnd := T.pages_nodup
  simp only [pages, List.nodup_cons, List.mem_cons, List.not_mem_nil, not_or, or_false] at hnd
  obtain ⟨⟨h01, h02, h03⟩, ⟨h12, h13⟩, h23, -⟩ := hnd
  rcases mem_cells.mp hc with rfl | rfl | rfl | rfl | ⟨i, -, rfl⟩
  · exact ⟨fun _ => rfl, fun _ => Or.inl rfl, fun _ => rfl⟩
  · exact ⟨fun _ => rfl, fun _ => Or.inl rfl, fun _ => rfl⟩
  · exact ⟨fun h => absurd h.symm h01, fun _ => Or.inr rfl, fun h => absurd h h12⟩
  · exact ⟨fun _ => rfl, fun _ => Or.inl rfl, fun _ => rfl⟩
  · exact ⟨fun h => absurd h.symm h03, fun h => absurd h.symm h13, fun h => absurd h.symm h23⟩

/-- The memory has the entries that are written. -/
structure Entries (T : Tables) (m : Bytes) : Prop where
  root : m.read64 (slot INITIAL_PML4T 0) = T.pdpt ||| kPageTableEntryFlags
  low : m.read64 (slot T.pdpt 0) = T.pd1 ||| kPageTableEntryFlags
  high : m.read64 (slot T.pdpt 4) = T.pd2 ||| kPageTableEntryFlags
  page : m.read64 (slot T.pd1 0) = 0 ||| kHugePageTableEntryFlags
  friendPages : ∀ i < 512, m.read64 (slot T.pd2 i) = friendPage i ||| kHugePageTableEntryFlags

theorem read_install (m : Bytes) {t v : BitVec 64} {i : Nat} (hc : ⟨t, i, v⟩ ∈ T.cells) :
    (install m T.cells).read64 (slot t i) = v :=
  Bytes.read64_foldl_of_mem (w := Cell.write ⟨t, i, v⟩) m (fun _ hw => write_aligned hw) writes_nodup
    (List.mem_map_of_mem hc)

theorem entries_install (m : Bytes) : T.Entries (install m T.cells) where
  root := read_install m (mem_cells.mpr (Or.inl rfl))
  low := read_install m (mem_cells.mpr (Or.inr (Or.inl rfl)))
  high := read_install m (mem_cells.mpr (Or.inr (Or.inr (Or.inl rfl))))
  page := read_install m (mem_cells.mpr (Or.inr (Or.inr (Or.inr (Or.inl rfl)))))
  friendPages := fun i hi => read_install m (mem_cells.mpr (Or.inr (Or.inr (Or.inr (Or.inr ⟨i, hi, rfl⟩)))))

theorem read_install_other (m : Bytes) {a : BitVec 64} (ha : a.toNat % 8 = 0)
    (hne : ∀ c ∈ T.cells, slot c.page c.index ≠ a) : (install m T.cells).read64 a = m.read64 a := by
  refine Bytes.read64_foldl_of_not_mem m (fun _ hw => write_aligned hw) ha ?_
  intro w hw
  obtain ⟨c, hc, rfl⟩ := List.mem_map.mp hw
  exact hne c hc

/-! ## The walk -/

section Walk
variable {mmu : Mmu} {m : Bytes} {v : BitVec 48}

theorem link_page {t : BitVec 64} (ht : t ∈ [T.pdpt, T.pd1, T.pd2]) : Link (t ||| kPageTableEntryFlags) t.toNat :=
  link_or (by decide) (T.aligned t ht) (inFriend_iff.mp (T.inFriend t ht)).2

variable (T) in
theorem links : Link (T.pdpt ||| kPageTableEntryFlags) T.pdpt.toNat ∧ Link (T.pd1 ||| kPageTableEntryFlags) T.pd1.toNat ∧
    Link (T.pd2 ||| kPageTableEntryFlags) T.pd2.toNat :=
  ⟨T.link_page (by simp), T.link_page (by simp), T.link_page (by simp)⟩

theorem huge_first : Huge (0 ||| kHugePageTableEntryFlags) 0 := ⟨rfl, rfl, by decide⟩

theorem huge_friendPage {i : Nat} (hi : i < 512) :
    Huge (friendPage i ||| kHugePageTableEntryFlags) (0x100000000 + i * 0x200000) := by
  have hpage : (friendPage i).toNat = 0x100000000 + i * 0x200000 := by
    rw [friendPage, BitVec.toNat_ofNat, Nat.mod_eq_of_lt (by omega)]
  rw [← hpage]
  exact huge_or (by decide) (by omega) (by omega)

namespace Entries

theorem walk_root (h : T.Entries m) (hv : index v 39 = 0) :
    mmu.walk m INITIAL_PML4T v = mmu.walkPdpt m [T.pdpt ||| kPageTableEntryFlags] T.pdpt v := by
  rw [walk_link T.links.1 (by rw [hv]; exact h.root), BitVec.ofNat_toNat, BitVec.setWidth_eq]

theorem walk_first (h : T.Entries m) (hv : index v 39 = 0) (hv' : index v 30 = 0) :
    mmu.walk m INITIAL_PML4T v =
      mmu.walkPd m ([T.pdpt ||| kPageTableEntryFlags] ++ [T.pd1 ||| kPageTableEntryFlags]) T.pd1 v := by
  rw [h.walk_root hv, walkPdpt_link T.links.2.1 (by rw [hv']; exact h.low), BitVec.ofNat_toNat, BitVec.setWidth_eq]

theorem walk_low (h : T.Entries m) (hv : v.toNat < 0x200000) :
    mmu.walk m INITIAL_PML4T v = some ⟨v.setWidth 64, true, true⟩ := by
  have h39 : index v 39 = 0 := by unfold index; omega
  have h30 : index v 30 = 0 := by unfold index; omega
  have h21 : index v 21 = 0 := by unfold index; omega
  rw [h.walk_first h39 h30, walkPd_huge huge_first (by rw [h21]; exact h.page),
    leaf_huge T.links.1 T.links.2.1 huge_first, show 0 + v.toNat % 2 ^ 21 = v.toNat by omega, BitVec.ofNat_toNat]

theorem walk_friend (h : T.Entries m) (hv : 0x100000000 ≤ v.toNat ∧ v.toNat < 0x140000000) :
    mmu.walk m INITIAL_PML4T v = some ⟨v.setWidth 64, true, true⟩ := by
  have h39 : index v 39 = 0 := by unfold index; omega
  have h30 : index v 30 = 4 := by unfold index; omega
  have h21 := index_lt v 21
  have hsum : 0x100000000 + index v 21 * 0x200000 + v.toNat % 2 ^ 21 = v.toNat := by unfold index; omega
  rw [h.walk_root h39, walkPdpt_link T.links.2.2 (by rw [h30]; exact h.high), BitVec.ofNat_toNat, BitVec.setWidth_eq,
    walkPd_huge (huge_friendPage h21) (h.friendPages _ h21), leaf_huge T.links.1 T.links.2.2 (huge_friendPage h21), hsum,
    BitVec.ofNat_toNat]

end Entries
end Walk
end Tables

namespace Loader16
open Tables (slot)

variable {T : Tables} {bin : Friend16} {entry : BitVec 64} {m : Bytes}

/-- Outside the page of the trampoline code `Init` writes the entries only. -/
theorem read_installed (hsize : bin.size ≤ PAGE_SIZE) {a : BitVec 64} (ha : a.toNat % 8 = 0)
    (hout : a.toNat + 8 ≤ 0x70000 ∨ 0x71000 ≤ a.toNat) (hne : ∀ c ∈ T.cells, slot c.page c.index ≠ a) :
    (installed T bin entry m).read64 a = m.read64 a := by
  have hlt := a.isLt
  have hsize' : bin.size.toNat ≤ 0x1000 := hsize
  have hcode : (m.copy ⟨TRAMPOLINE_ADDR, bin.size⟩ bin.start).read64 a = m.read64 a := by
    refine Bytes.read64_copy_apart m _ (by omega) ?_
    rw [toNat_trampoline_addr]
    dsimp only
    omega
  rw [installed, T.read_install_other _ ha hne, ← hcode]
  refine Bytes.read64_copy_apart _ _ (by omega) ?_
  rw [show (TRAMPOLINE_ADDR + 8).toNat = 0x70008 from rfl, Lib.toNat_eight]
  omega

/-- The entries `InitPageTables` does not write are left alone by all of `Init`. -/
theorem read_other (hsize : bin.size ≤ PAGE_SIZE) {t : BitVec 64} (ht : t ∈ T.pages) {i : Nat} (hi : i < 512)
    (hne : ∀ c ∈ T.cells, c.page = t → c.index ≠ i) :
    (installed T bin entry m).read64 (slot t i) = m.read64 (slot t i) := by
  obtain ⟨hal, hge, -⟩ := T.pages_bounds ht
  have hslot := T.toNat_slot ht hi
  refine read_installed hsize (by omega) (by omega) fun c hc he => ?_
  obtain ⟨hpage, hindex⟩ := T.cell_bounds hc
  obtain ⟨hp, hi⟩ := T.slot_inj hpage ht hindex hi he
  exact hne c hc hp hi

end Loader16

/-! ## Hakase and friend -/

section Hakase
open Loader16

/-- **Hakase and friend see the same memory at the same address**: after `mmap_friend_mem` and `Init`, whatever is in
memory in between. -/
theorem same_memory (mmu : Mmu) (T : Tables) (bin : Friend16) (entry : BitVec 64) {p p₁ p₂ : Process}
    {opened remapped opened' remapped' : Bool} (m : Bytes) (g : Grant ⟨m, p₁.map⟩ TRAMPOLINE_SIZE)
    (hmmap : p.mmapFriendMem opened remapped = some (0, p₁))
    (hinit : init T bin ⟨m, p₁.map⟩ entry opened' remapped' g = some (0, p₂)) :
    (∀ a, InFriend a →
      mmu.walk p₂.phys INITIAL_PML4T (a.setWidth 48) = some ⟨a, true, true⟩ ∧ p₂.map a = some a) ∧
    ∀ a, (Range.mk TRAMPOLINE_ADDR TRAMPOLINE_SIZE).covers a = true →
      mmu.walk p₂.phys INITIAL_PML4T (a.setWidth 48) = some ⟨a, true, true⟩ := by
  have hsees := Process.seesFriend_of_mmapFriendMem hmmap
  obtain ⟨-, rfl⟩ := init_success (p := ⟨m, p₁.map⟩) hsees hinit
  have hentries : T.Entries (installed T bin entry m) := T.entries_install _
  have hback : ∀ a : BitVec 64, a.toNat < 2 ^ 48 → (a.setWidth 48).toNat = a.toNat ∧ (a.setWidth 48).setWidth 64 = a := by
    intro a ha
    have hlow : (a.setWidth 48).toNat = a.toNat := by rw [BitVec.toNat_setWidth, Nat.mod_eq_of_lt ha]
    refine ⟨hlow, BitVec.eq_of_toNat_eq ?_⟩
    rw [BitVec.toNat_setWidth, hlow, Nat.mod_eq_of_lt a.isLt]
  dsimp only
  constructor
  · intro a ha
    have hbounds := inFriend_iff.mp ha
    obtain ⟨hlow, hwide⟩ := hback a (by omega)
    rw [hentries.walk_friend (by rw [hlow]; exact hbounds), hwide]
    exact ⟨rfl, hsees a ha⟩
  · intro a ha
    have hbounds : 0x70000 ≤ a.toNat ∧ a.toNat < 0x72000 := (Range.covers_iff (by decide)).mp ha
    obtain ⟨hlow, hwide⟩ := hback a (by omega)
    rw [hentries.walk_low (by rw [hlow]; omega), hwide]

def farGrant {p : Process} (h : ∀ a, ¬InFriend a → p.map a = none) : Grant p TRAMPOLINE_SIZE where
  base := 0x7f0000000000
  aligned := by decide
  fits := by decide
  free := by
    intro a ha
    have hbounds := (Range.covers_iff (by decide)).mp ha
    refine h a fun hin => ?_
    have hlt := (inFriend_iff.mp hin).2
    exact absurd (hbounds.1.trans_lt hlt) (by decide)

def sampleMmu : Mmu := ⟨39, by decide, by decide, true⟩

def sampleTables : Tables where
  pdpt := 0x100001000
  pd1 := 0x100002000
  pd2 := 0x100003000
  inFriend := by simp [inFriend_iff]
  aligned := by simp
  nodup := by simp

def sampleBin : Friend16 := ⟨fun _ => 0x90, 0x100⟩

theorem same_memory_last :
    sampleMmu.walk (installed sampleTables sampleBin 0x100010000 fun _ => 0xff) INITIAL_PML4T 0x13fffffff =
      some ⟨0x13fffffff, true, true⟩ := by
  obtain ⟨p₁, hmmap, hrest⟩ := Process.exists_mmapFriendMem ⟨fun _ => 0, fun _ => none⟩
  have hsees := Process.seesFriend_of_mmapFriendMem hmmap
  have hinit := init_fits (p := ⟨fun _ => 0xff, p₁.map⟩) sampleTables sampleBin 0x100010000 hsees (by decide)
    (farGrant hrest)
  have hwalk := ((same_memory sampleMmu _ _ _ _ _ hmmap hinit).1 0x13fffffff (by simp [inFriend_iff])).1
  dsimp only at hwalk
  rwa [show (0x13fffffff : BitVec 64).setWidth 48 = 0x13fffffff from rfl] at hwalk

end Hakase
end Toshokan.Hakase
