import Toshokan.Hakase.PageTables

/-!
# What the initial page tables do not map

`Init` writes entry 0 of the PML4 only. What the other 511 entries hold was in the trampoline memory before.

* `MapsOnly` : the walk translates the 2MB page of the trampoline and friend memory, and nothing else;
* `isSome_walk_installed_iff` : below 512GB this is so; `mapsOnly_installed_iff` : above, it is so unless an entry that
  was left leads to a page;
* `LeadsOn` : the entries that do in some memory; `mapsOnly_iff` : nothing else is mapped, whatever the rest of memory
  holds, iff the trampoline memory has none of them;
* `stray_mapping` : a page that held an entry for itself.
-/

namespace Toshokan.Hakase
open Lib Lib.Mmu
open Lib (Bytes Range)
open Loader16

def Tables.Cleared (T : Tables) (m : Bytes) : Prop :=
  ∀ t ∈ [T.pdpt, T.pd1, T.pd2], ∀ k < 4096, m (t + BitVec.ofNat 64 k) = 0

/-- The walk translates the 2MB page of the trampoline and friend memory only. -/
def MapsOnly (mmu : Mmu) (m : Bytes) : Prop :=
  ∀ v : BitVec 48, (mmu.walk m INITIAL_PML4T v).isSome = true ↔
    v.toNat / 0x200000 = TRAMPOLINE_ADDR.toNat / 0x200000 ∨ InFriend (v.setWidth 64)

/-- Entry `i` of the PML4, as it is in `m` before `Init`, leads to a page in the memory after it. -/
def Stray (mmu : Mmu) (T : Tables) (bin : Friend16) (entry : BitVec 64) (m : Bytes) (i : Nat) : Prop :=
  ∃ e, mmu.entry m INITIAL_PML4T i = some e ∧ field e 7 1 = 0 ∧
    ∃ v : BitVec 48, index v 39 = i ∧ (mmu.walkPdpt (installed T bin entry m) [e] (frame e) v).isSome = true

theorem Tables.Cleared.read {T : Tables} {m : Bytes} (h : T.Cleared m) {t : BitVec 64}
    (ht : t ∈ [T.pdpt, T.pd1, T.pd2]) {i : Nat} (hi : i < 512) : m.read64 (Tables.slot t i) = 0 := by
  refine (Bytes.read64_congr fun k hk => ?_).trans (Bytes.read64_zero _)
  rw [BitVec.lt_def, Lib.toNat_eight] at hk
  have hbyte := h t ht (8 * i + k.toNat) (by omega)
  rwa [BitVec.ofNat_add, BitVec.ofNat_toNat, BitVec.setWidth_eq, ← BitVec.add_assoc] at hbyte

theorem mapped_iff (v : BitVec 48) :
    v.toNat / 0x200000 = TRAMPOLINE_ADDR.toNat / 0x200000 ∨ InFriend (v.setWidth 64) ↔
      v.toNat < 0x200000 ∨ 0x100000000 ≤ v.toNat ∧ v.toNat < 0x140000000 := by
  rw [inFriend_iff, BitVec.toNat_setWidth, Nat.mod_eq_of_lt (by omega), toNat_trampoline_addr]
  omega

section Only
variable {mmu : Mmu} {T : Tables} {bin : Friend16} {entry : BitVec 64} {m : Bytes}

/-- Below 512GB the tables are complete. -/
theorem isSome_walk_installed_iff (hsize : bin.size ≤ PAGE_SIZE) (hclear : T.Cleared m) {v : BitVec 48}
    (hv : index v 39 = 0) :
    (mmu.walk (installed T bin entry m) INITIAL_PML4T v).isSome = true ↔
      v.toNat / 0x200000 = TRAMPOLINE_ADDR.toNat / 0x200000 ∨ InFriend (v.setWidth 64) := by
  have hentries : T.Entries (installed T bin entry m) := T.entries_install _
  obtain ⟨-, hpdpt, hpd1, -⟩ := T.mem_pages
  rw [mapped_iff]
  by_cases hlow : v.toNat < 0x200000
  · rw [hentries.walk_low hlow]
    exact iff_of_true rfl (Or.inl hlow)
  by_cases hfriend : 0x100000000 ≤ v.toNat ∧ v.toNat < 0x140000000
  · rw [hentries.walk_friend hfriend]
    exact iff_of_true rfl (Or.inr hfriend)
  refine iff_of_false ?_ (by omega)
  have hbits : v.toNat < 2 ^ 39 := by
    have hlt := v.isLt
    unfold index at hv
    omega
  by_cases h30 : index v 30 = 0
  · have h21 : index v 21 ≠ 0 ∧ index v 21 < 512 := by
      unfold index at h30 ⊢
      omega
    have hread : (installed T bin entry m).read64 (Tables.slot T.pd1 (index v 21)) = 0 :=
      (read_other hsize hpd1 h21.2 fun c hc hp hi => h21.1 (hi ▸ (T.index_of_page hc).2.2 hp)).trans
        (hclear.read (by simp) h21.2)
    rw [hentries.walk_first hv h30, walkPd_none hread]
    exact Bool.false_ne_true
  · have h30' : index v 30 ≠ 4 ∧ index v 30 < 512 := by
      unfold index at h30 ⊢
      omega
    have hread : (installed T bin entry m).read64 (Tables.slot T.pdpt (index v 30)) = 0 := by
      refine (read_other hsize hpdpt h30'.2 fun c hc hp hi => ?_).trans (hclear.read (by simp) h30'.2)
      rcases (T.index_of_page hc).2.1 hp with h | h
      · exact h30 (hi ▸ h)
      · exact h30'.1 (hi ▸ h)
    rw [hentries.walk_root hv, walkPdpt_none hread]
    exact Bool.false_ne_true

theorem entry_left (hsize : bin.size ≤ PAGE_SIZE) {i : Nat} (hi : i < 512) (hpos : 0 < i) :
    mmu.entry (installed T bin entry m) INITIAL_PML4T i = mmu.entry m INITIAL_PML4T i := by
  refine entry_congr (read_other hsize T.mem_pages.1 hi fun c hc hp he => ?_)
  have hzero := (T.index_of_page hc).1 hp
  omega

/-- **Nothing else is mapped iff no entry that is left in the PML4 leads to a page.** -/
theorem mapsOnly_installed_iff (hsize : bin.size ≤ PAGE_SIZE) (hclear : T.Cleared m) :
    MapsOnly mmu (installed T bin entry m) ↔ ∀ i, 0 < i → ¬Stray mmu T bin entry m i := by
  constructor
  · rintro h i hpos ⟨e, he, hbit, v, rfl, hwalk⟩
    have hlt := index_lt v 39
    have hsome := isSome_walk_iff.mpr ⟨e, (entry_left hsize hlt hpos).trans he, hbit, hwalk⟩
    have hv := (h v).mp hsome
    rw [mapped_iff] at hv
    unfold index at hpos
    omega
  · intro h v
    have hlt := index_lt v 39
    rcases Nat.eq_zero_or_pos (index v 39) with hv | hv
    · exact isSome_walk_installed_iff hsize hclear hv
    · refine iff_of_false (fun hsome => ?_) fun hin => ?_
      · obtain ⟨e, he, hbit, hwalk⟩ := isSome_walk_iff.mp hsome
        exact h _ hv ⟨e, (entry_left hsize hlt hv).symm.trans he, hbit, v, rfl, hwalk⟩
      · rw [mapped_iff] at hin
        unfold index at hv
        omega

/-! ## Entries without use -/

/-- Without 1GB pages a page directory is no page directory pointer table. -/
theorem walkPdpt_pd_none (hsize : bin.size ≤ PAGE_SIZE) (hclear : T.Cleared m) (hgb : mmu.gbPages = false)
    {t : BitVec 64} (ht : t = T.pd1 ∨ t = T.pd2) (es : List (BitVec 64)) (v : BitVec 48) :
    mmu.walkPdpt (installed T bin entry m) es t v = none := by
  have hentries : T.Entries (installed T bin entry m) := T.entries_install _
  have hlt := index_lt v 30
  rcases ht with rfl | rfl
  · by_cases h30 : index v 30 = 0
    · exact walkPdpt_huge_none Tables.huge_first hgb (by rw [h30]; exact hentries.page)
    · refine walkPdpt_none ((read_other hsize T.mem_pages.2.2.1 hlt fun c hc hp hi => h30 ?_).trans
        (hclear.read (by simp) hlt))
      rw [← hi, (T.index_of_page hc).2.2 hp]
  · exact walkPdpt_huge_none (Tables.huge_friendPage hlt) hgb (hentries.friendPages _ hlt)

end Only

/-! ## Entries that lead to a page -/

/-- The processor follows entry `i` of the PML4 in `c`; without 1GB pages, to another table than a page directory. -/
def LeadsOn (mmu : Mmu) (T : Tables) (c : Bytes) (i : Nat) : Prop :=
  ∃ e, mmu.entry c INITIAL_PML4T i = some e ∧ field e 7 1 = 0 ∧
    (mmu.gbPages = true ∨ frame e ≠ T.pd1 ∧ frame e ≠ T.pd2)

/-- The first address whose walk takes entry `i` of the PML4. -/
def firstOf (i : Nat) : BitVec 48 := BitVec.ofNat 48 (i * 2 ^ 39)

theorem index_firstOf {i : Nat} (hi : i < 512) :
    index (firstOf i) 39 = i ∧ index (firstOf i) 30 = 0 ∧ index (firstOf i) 21 = 0 ∧ index (firstOf i) 12 = 0 := by
  have hnat : (firstOf i).toNat = i * 2 ^ 39 := by
    rw [firstOf, BitVec.toNat_ofNat, Nat.mod_eq_of_lt (by omega)]
  simp only [index, hnat]
  omega

section Lead
variable {mmu : Mmu} {T : Tables} {m : Bytes} {es : List (BitVec 64)} {i : Nat}

/-- A table with an entry for `__toshokan_pdpt`, which serves as a page directory then. -/
theorem isSome_of_link (h : T.Entries m) (hi : i < 512) {t : BitVec 64}
    (hr : m.read64 (Tables.slot t 0) = T.pdpt ||| kPageTableEntryFlags) :
    (mmu.walkPdpt m es t (firstOf i)).isSome = true := by
  obtain ⟨-, h30, h21, h12⟩ := index_firstOf hi
  rw [walkPdpt_link T.links.1 (by rw [h30]; exact hr), BitVec.ofNat_toNat, BitVec.setWidth_eq,
    walkPd_link T.links.2.1 (by rw [h21]; exact h.low), BitVec.ofNat_toNat, BitVec.setWidth_eq,
    Tables.huge_first.entry (by rw [h12]; exact h.page), Option.map_some, Option.isSome_some]

theorem isSome_of_pdpt (h : T.Entries m) (hi : i < 512) :
    (mmu.walkPdpt m es T.pdpt (firstOf i)).isSome = true := by
  obtain ⟨-, h30, h21, -⟩ := index_firstOf hi
  rw [walkPdpt_link T.links.2.1 (by rw [h30]; exact h.low), BitVec.ofNat_toNat, BitVec.setWidth_eq,
    walkPd_huge Tables.huge_first (by rw [h21]; exact h.page), Option.isSome_some]

theorem isSome_of_pd (h : T.Entries m) (hi : i < 512) (hgb : mmu.gbPages = true) {t : BitVec 64}
    (ht : t = T.pd1 ∨ t = T.pd2) : (mmu.walkPdpt m es t (firstOf i)).isSome = true := by
  obtain ⟨-, h30, -, -⟩ := index_firstOf hi
  rcases ht with rfl | rfl
  · rw [walkPdpt_huge Tables.huge_first (by decide) (by rw [h30]; exact h.page), hgb]
  · rw [walkPdpt_huge (Tables.huge_friendPage (i := 0) (by decide)) (by decide)
      (by rw [h30]; exact h.friendPages 0 (by decide)), hgb]

end Lead

/-- The trampoline memory of `c` and the rest of `m`. -/
def withTrampoline (c m : Bytes) : Bytes :=
  m.copy ⟨TRAMPOLINE_ADDR, TRAMPOLINE_SIZE⟩ fun k => c (TRAMPOLINE_ADDR + k)

theorem withTrampoline_of_covers (c m : Bytes) {a : BitVec 64}
    (h : (Range.mk TRAMPOLINE_ADDR TRAMPOLINE_SIZE).covers a = true) : withTrampoline c m a = c a := by
  rw [withTrampoline, Bytes.copy_of_covers _ _ h]
  dsimp only
  rw [BitVec.add_comm, BitVec.sub_add_cancel]

theorem Tables.Cleared.copy {T : Tables} {m : Bytes} (h : T.Cleared m) {dst : Range} (src : BitVec 64 → BitVec 8)
    (hout : ∀ t ∈ [T.pdpt, T.pd1, T.pd2], ∀ k < 4096, dst.covers (t + BitVec.ofNat 64 k) = false) :
    T.Cleared (m.copy dst src) := by
  intro t ht k hk
  rw [Bytes.copy_of_not_covers _ _ (hout t ht k hk)]
  exact h t ht k hk

theorem Tables.toNat_byte (T : Tables) {t : BitVec 64} (ht : t ∈ [T.pdpt, T.pd1, T.pd2]) {k : Nat} (hk : k < 4096) :
    (t + BitVec.ofNat 64 k).toNat = t.toNat + k := by
  have hin := inFriend_iff.mp (T.inFriend t ht)
  rw [BitVec.toNat_add, BitVec.toNat_ofNat]
  omega

theorem cleared_withTrampoline {T : Tables} {m : Bytes} (h : T.Cleared m) (c : Bytes) :
    T.Cleared (withTrampoline c m) := by
  refine h.copy _ fun t ht k hk => ?_
  have hin := inFriend_iff.mp (T.inFriend t ht)
  rw [← Bool.not_eq_true, Range.covers_iff (by decide), T.toNat_byte ht hk,
    toNat_trampoline_addr, toNat_trampoline_size]
  omega

theorem cleared_write64 {T : Tables} {t : BitVec 64} (hal : t.toNat % 2 ^ 12 = 0) (ht : t ∉ [T.pdpt, T.pd1, T.pd2])
    (v : BitVec 64) : T.Cleared (Bytes.write64 (fun _ => 0) t v) := by
  have hzero : T.Cleared fun _ => 0 := fun _ _ _ _ => rfl
  refine hzero.copy _ fun t' ht' k hk => ?_
  have hal' := T.aligned t' ht'
  have hin := inFriend_iff.mp (T.inFriend t' ht')
  have hne : t.toNat ≠ t'.toNat := fun he => ht (BitVec.eq_of_toNat_eq he ▸ ht')
  rw [← Bool.not_eq_true, Range.covers_iff_sub, BitVec.toNat_sub, T.toNat_byte ht' hk,
    Lib.toNat_eight]
  dsimp only
  omega

theorem Tables.slot_ne (T : Tables) {t : BitVec 64} (hal : t.toNat % 2 ^ 12 = 0) (ht : t ∉ T.pages) :
    ∀ c ∈ T.cells, slot c.page c.index ≠ t := by
  intro c hc he
  obtain ⟨hpage, hindex⟩ := T.cell_bounds hc
  have hal' := (T.pages_bounds hpage).1
  have hnat := congrArg BitVec.toNat he
  rw [T.toNat_slot hpage hindex] at hnat
  exact ht (BitVec.eq_of_toNat_eq (x := c.page) (y := t) (by omega) ▸ hpage)

/-- Trampoline code that starts with an entry for `__toshokan_pdpt`. -/
def linkBin (T : Tables) : Friend16 := ⟨Bytes.byte (T.pdpt ||| kPageTableEntryFlags), 8⟩

theorem linkBin_fits (T : Tables) : (linkBin T).size ≤ PAGE_SIZE := show (8 : BitVec 64) ≤ PAGE_SIZE by decide

/-- Every page but the three can start with such an entry after `Init`. -/
theorem read_link (T : Tables) (c : Bytes) {t : BitVec 64} (hal : t.toNat % 2 ^ 12 = 0)
    (ht : t ∉ [T.pdpt, T.pd1, T.pd2]) :
    (installed T (linkBin T) 0
      (withTrampoline c (Bytes.write64 (fun _ => 0) t (T.pdpt ||| kPageTableEntryFlags)))).read64 (Tables.slot t 0) =
      T.pdpt ||| kPageTableEntryFlags := by
  by_cases hroot : t = INITIAL_PML4T
  · subst hroot
    exact (T.entries_install _).root
  have hpages : t ∉ T.pages := fun h => (List.mem_cons.mp h).elim hroot ht
  have hslot : Tables.slot t 0 = t := BitVec.add_zero t
  rw [hslot]
  by_cases hcode : t = TRAMPOLINE_ADDR
  · subst hcode
    rw [installed, T.read_install_other _ (by decide) (T.slot_ne hal hpages),
      Bytes.read64_write64_of_ne _ _ (by decide) (by decide) (by decide)]
    exact Bytes.read64_write64_self _ _ _
  · have hlt := t.isLt
    have hroot' : t.toNat ≠ 0x71000 := fun he => hroot (BitVec.eq_of_toNat_eq he)
    have hcode' : t.toNat ≠ 0x70000 := fun he => hcode (BitVec.eq_of_toNat_eq he)
    rw [read_installed (linkBin_fits T) (by omega) (by omega) (T.slot_ne hal hpages), withTrampoline,
      Bytes.read64_copy_apart _ _ (by omega), Bytes.read64_write64_self]
    rw [toNat_trampoline_addr, toNat_trampoline_size]
    omega

theorem entry_of_trampoline {mmu : Mmu} {c m : Bytes}
    (h : ∀ a, (Range.mk TRAMPOLINE_ADDR TRAMPOLINE_SIZE).covers a = true → m a = c a) {i : Nat} (hi : i < 512) :
    mmu.entry m INITIAL_PML4T i = mmu.entry c INITIAL_PML4T i := by
  refine entry_congr (Bytes.read64_congr fun k hk => h _ ?_)
  rw [BitVec.lt_def, Lib.toNat_eight] at hk
  rw [Range.covers_iff (by decide), BitVec.toNat_add, BitVec.toNat_add, BitVec.toNat_ofNat,
    toNat_initial_pml4t, toNat_trampoline_addr,
    toNat_trampoline_size]
  omega

/-- An entry that leads on leads to a page for some code and some rest of memory. -/
theorem exists_walk {mmu : Mmu} {T : Tables} (c : Bytes) {e : BitVec 64} {i : Nat} (hi : i < 512)
    (hlead : mmu.gbPages = true ∨ frame e ≠ T.pd1 ∧ frame e ≠ T.pd2) :
    ∃ m, T.Cleared m ∧
      (mmu.walkPdpt (installed T (linkBin T) 0 (withTrampoline c m)) [e] (frame e) (firstOf i)).isSome = true := by
  by_cases ht : frame e ∈ [T.pdpt, T.pd1, T.pd2]
  · refine ⟨fun _ => 0, fun _ _ _ _ => rfl, ?_⟩
    have hentries : T.Entries (installed T (linkBin T) 0 (withTrampoline c fun _ => 0)) := T.entries_install _
    rcases List.mem_cons.mp ht with ht | ht
    · rw [ht]
      exact isSome_of_pdpt hentries hi
    · have hpd : frame e = T.pd1 ∨ frame e = T.pd2 := by simpa using ht
      have hgb : mmu.gbPages = true := by
        rcases hlead with hgb | hne
        · exact hgb
        · exact absurd hpd (not_or.mpr hne)
      exact isSome_of_pd hentries hi hgb hpd
  · have hal := frame_aligned e
    exact ⟨_, cleared_write64 hal ht _, isSome_of_link (T.entries_install _) hi (read_link T c hal ht)⟩

def friendOnly : AddressMap := fun a => if InFriend a then some a else none

theorem seesFriend_friendOnly : friendOnly.SeesFriend := fun _ ha => if_pos ha

def friendOnlyGrant (m : Bytes) : Grant ⟨m, friendOnly⟩ TRAMPOLINE_SIZE := farGrant fun _ ha => if_neg ha

/-- **What the trampoline memory must not hold.** After every `Init` on trampoline memory `c`, whatever the code, the
entry point and the rest of memory are, nothing else is mapped iff no entry from 1 on of the PML4 in `c` leads on. -/
theorem mapsOnly_iff (mmu : Mmu) (T : Tables) (c : Bytes) :
    (∀ (bin : Friend16) (entry : BitVec 64) (p p' : Process) (opened remapped : Bool) (g : Grant p TRAMPOLINE_SIZE),
      p.map.SeesFriend → T.Cleared p.phys →
      (∀ a, (Range.mk TRAMPOLINE_ADDR TRAMPOLINE_SIZE).covers a = true → p.phys a = c a) →
      init T bin p entry opened remapped g = some (0, p') → MapsOnly mmu p'.phys) ↔
    ∀ i, 0 < i → i < 512 → ¬LeadsOn mmu T c i := by
  constructor
  · rintro h i hpos hi ⟨e, he, hps, hlead⟩
    obtain ⟨m, hclear, hsome⟩ := exists_walk c hi hlead
    have hclear' := cleared_withTrampoline hclear c
    have hagree : ∀ a, (Range.mk TRAMPOLINE_ADDR TRAMPOLINE_SIZE).covers a = true → withTrampoline c m a = c a :=
      fun a ha => withTrampoline_of_covers c m ha
    have hmaps := h (linkBin T) 0 ⟨withTrampoline c m, friendOnly⟩ _ true true (friendOnlyGrant _)
      seesFriend_friendOnly hclear' hagree (init_fits T _ 0 seesFriend_friendOnly (linkBin_fits T) _)
    dsimp only at hmaps
    exact (mapsOnly_installed_iff (linkBin_fits T) hclear').mp hmaps i hpos
      ⟨e, (entry_of_trampoline hagree hi).trans he, hps, firstOf i, (index_firstOf hi).1, hsome⟩
  · intro h bin entry p p' opened remapped g hmap hclear hagree hinit
    obtain ⟨hsize, rfl⟩ := init_success hmap hinit
    dsimp only
    rw [mapsOnly_installed_iff hsize hclear]
    rintro i hpos ⟨e, he, hps, v, rfl, hsome⟩
    have hlt := index_lt v 39
    refine h _ hpos hlt ⟨e, (entry_of_trampoline hagree hlt).symm.trans he, hps, ?_⟩
    by_contra hdead
    rw [not_or, Bool.not_eq_true, not_and_or, not_not, not_not] at hdead
    rw [walkPdpt_pd_none hsize hclear hdead.1 hdead.2] at hsome
    cases hsome

/-- The PML4 page held an entry for itself. -/
def selfMapped : Bytes := Bytes.write64 (fun _ => 0) (Tables.slot INITIAL_PML4T 1) 0x71007

theorem selfMapped_cleared : sampleTables.Cleared selfMapped := by
  intro t ht k hk
  have hin := inFriend_iff.mp (sampleTables.inFriend t ht)
  have hal := sampleTables.aligned t ht
  rw [selfMapped, Bytes.write64]
  refine Bytes.copy_of_not_covers _ _ ?_
  rw [← Bool.not_eq_true, Range.covers_iff (by decide), BitVec.toNat_add, BitVec.toNat_ofNat]
  simp only [show (Tables.slot INITIAL_PML4T 1).toNat = 0x71008 from rfl, Lib.toNat_eight]
  omega

/-- The walk of the first address beyond 512GB takes the PML4 for its second table and ends at physical address 0. -/
theorem walk_of_self {mmu : Mmu} {T : Tables} {m : Bytes} (h : T.Entries m)
    (hself : m.read64 (Tables.slot INITIAL_PML4T 1) = 0x71007) :
    mmu.walk m INITIAL_PML4T 0x8000000000 = some ⟨0, true, true⟩ := by
  have hlink : Link 0x71007 0x71000 := ⟨rfl, rfl, by decide⟩
  have h39 : index 0x8000000000 39 = 1 := by decide
  have h30 : index 0x8000000000 30 = 0 := by decide
  have h21 : index 0x8000000000 21 = 0 := by decide
  have h12 : index 0x8000000000 12 = 0 := by decide
  rw [walk_link hlink (by rw [h39]; exact hself), walkPdpt_link T.links.1 (by rw [h30]; exact h.root),
    BitVec.ofNat_toNat, BitVec.setWidth_eq, walkPd_link T.links.2.1 (by rw [h21]; exact h.low),
    BitVec.ofNat_toNat, BitVec.setWidth_eq, Tables.huge_first.entry (by rw [h12]; exact h.page), Option.map_some]
  simp only [leaf, List.cons_append, List.nil_append, List.all_cons, List.all_nil, T.links.1.fields, T.links.2.1.fields,
    Option.some.injEq, Translation.mk.injEq]
  decide

theorem walk_selfMapped :
    sampleMmu.walk (installed sampleTables sampleBin 0x100010000 selfMapped) INITIAL_PML4T 0x8000000000 =
      some ⟨0, true, true⟩ := by
  refine walk_of_self (sampleTables.entries_install _) ?_
  rw [read_other (by decide) sampleTables.mem_pages.1 (by decide) fun c hc hp he => ?_]
  · exact Bytes.read64_write64_self _ _ _
  · rw [(sampleTables.index_of_page hc).1 hp] at he
    cases he

theorem stray_mapping :
    sampleTables.Cleared selfMapped ∧ friendOnly.SeesFriend ∧
    init sampleTables sampleBin ⟨selfMapped, friendOnly⟩ 0x100010000 true true (friendOnlyGrant _) =
      some (0, ⟨installed sampleTables sampleBin 0x100010000 selfMapped, friendOnly⟩) ∧
    sampleMmu.walk (installed sampleTables sampleBin 0x100010000 selfMapped) INITIAL_PML4T 0x8000000000 =
      some ⟨0, true, true⟩ ∧
    ¬MapsOnly sampleMmu (installed sampleTables sampleBin 0x100010000 selfMapped) := by
  refine ⟨selfMapped_cleared, seesFriend_friendOnly,
    init_fits (p := ⟨selfMapped, friendOnly⟩) _ _ _ seesFriend_friendOnly (by decide) _, walk_selfMapped, fun h => ?_⟩
  have hv := (h 0x8000000000).mp (by rw [walk_selfMapped]; rfl)
  rw [mapped_iff] at hv
  exact absurd hv (by decide)

end Toshokan.Hakase
