import Toshokan.Lib.Tlb
import Toshokan.Hakase.PageTables

/-!
# `tutorial/paging/mapping`

A friend adds a page directory and a page table of its own to the tables of `Loader16::InitPageTables` and maps pages of
4KB by them, one entry after another.

* `Pages` : the two pages of the program; `enter`, `Op` : what `friend_main` does with its memory;
* `Op.track` : the frames a page has had since its last `invlpg`, `reads` : where the loads are to read;
* `Inv` : the tables have the last of them and the processor may have kept any;
* `shows_current_iff` : when every load reads by the entry that is in the table.
-/

namespace Toshokan.Tutorial
open Lib Lib.Mmu
open Lib (Bytes)
open Hakase (Tables kPageTableEntryFlags k512GB k1GB k2MB)
open Hakase.Tables (slot)

def k4KB : BitVec 64 := 4 * 1024

/-- The pages `pd` and `pt` of the program. -/
structure Pages extends Tables where
  pd : BitVec 64
  pt : BitVec 64
  inFriend_own : ∀ t ∈ [pd, pt], InFriend t
  aligned_own : ∀ t ∈ [pd, pt], t.toNat % 4096 = 0
  apart : [pdpt, pd1, pd2, pd, pt].Nodup

def v2p (vaddr : BitVec 64) : BitVec 64 := vaddr

namespace Pages

variable (P : Pages)

/-- The entries for the page directory and the page table. -/
def enter (vaddr : BitVec 64) : List Access :=
  [.store (P.pdpt + 8 * (vaddr % k512GB / k1GB)) (v2p P.pd ||| kPageTableEntryFlags),
    .store (P.pd + 8 * (vaddr % k1GB / k2MB)) (v2p P.pt ||| kPageTableEntryFlags)]

end Pages

/-- What follows: an entry of the page table, a flush, and the load of `show_memdata`. -/
inductive Op
  | setPage (vaddr frame : BitVec 64)
  | invlpg (vaddr : BitVec 64)
  | showMemdata (vaddr : BitVec 64)

def Op.access (P : Pages) : Op → Access
  | .setPage vaddr frame => .store (P.pt + 8 * (vaddr % k2MB / k4KB)) (frame ||| kPageTableEntryFlags)
  | .invlpg vaddr => .invlpg vaddr
  | .showMemdata vaddr => .load vaddr

/-- `friend_main` of the tutorial, without its OFFLOADs. -/
def mapping : List Op :=
  [.setPage 0x80000000 0x100000000, .showMemdata 0x80000000, .setPage 0x80000000 0x100001000, .invlpg 0x80000000,
    .showMemdata 0x80000000, .setPage 0x80001000 0x100000000, .setPage 0x80002000 0x100001000, .showMemdata 0x80001000,
    .showMemdata 0x80002000]

/-! ## What a page is mapped to -/

/-- For every entry of the page table the frames it has had since the last flush, the present one last. -/
abbrev History := Nat → List (BitVec 64)

def pageIndex (vaddr : BitVec 64) : Nat := vaddr.toNat / 2 ^ 12 % 512

def Op.track (h : History) : Op → History
  | .setPage vaddr frame => Function.update h (pageIndex vaddr) (h (pageIndex vaddr) ++ [frame])
  | .invlpg vaddr => Function.update h (pageIndex vaddr) (h (pageIndex vaddr)).getLast?.toList
  | .showMemdata _ => h

def inFrame (frame : BitVec 64) (offset : Nat) : BitVec 64 := BitVec.ofNat 64 (frame.toNat + offset % 2 ^ 12)

/-- Where the loads are to read. -/
def reads (h : History) : List Op → List (BitVec 64)
  | [] => []
  | .showMemdata vaddr :: ops =>
      ((h (pageIndex vaddr)).getLast?.map (inFrame · vaddr.toNat)).toList ++ reads h ops
  | op :: ops => reads (op.track h) ops

theorem reads_setPage {h : History} {vaddr frame : BitVec 64} {ops : List Op} :
    reads h (.setPage vaddr frame :: ops) = reads ((Op.setPage vaddr frame).track h) ops := rfl

theorem reads_invlpg {h : History} {vaddr : BitVec 64} {ops : List Op} :
    reads h (.invlpg vaddr :: ops) = reads ((Op.invlpg vaddr).track h) ops := rfl

/-- A load is of a page that is mapped, and that has been flushed since it was mapped to another frame. -/
def Op.Certain (h : History) : Op → Prop
  | .showMemdata vaddr =>
      h (pageIndex vaddr) ≠ [] ∧ ∀ frame ∈ h (pageIndex vaddr), (h (pageIndex vaddr)).getLast? = some frame
  | _ => True

def Certain (h : History) : List Op → Prop
  | [] => True
  | op :: ops => op.Certain h ∧ Certain (op.track h) ops

instance decidableOpCertain (h : History) : (op : Op) → Decidable (op.Certain h)
  | .setPage _ _ | .invlpg _ => isTrue trivial
  | .showMemdata vaddr =>
      @instDecidableAnd _ _ inferInstance
        (List.decidableBAll (fun frame => (h (pageIndex vaddr)).getLast? = some frame) (h (pageIndex vaddr)))

instance decidableCertain : (h : History) → (ops : List Op) → Decidable (Certain h ops)
  | _, [] => isTrue trivial
  | h, op :: ops => @instDecidableAnd _ _ _ (decidableCertain (op.track h) ops)

/-! ## The tables -/

/-- A frame of memory that the processors are known to have. -/
def Frame (frame : BitVec 64) : Prop := frame.toNat % 4096 = 0 ∧ frame.toNat < 0x140000000

/-- The pages are of the 2MB of `base`, and a load is of a word that lies in one page. -/
def Op.Within (base : BitVec 64) : Op → Prop
  | .setPage vaddr frame => vaddr.toNat / 2 ^ 21 = base.toNat / 2 ^ 21 ∧ Frame frame
  | .invlpg vaddr => vaddr.toNat / 2 ^ 21 = base.toNat / 2 ^ 21
  | .showMemdata vaddr => vaddr.toNat / 2 ^ 21 = base.toNat / 2 ^ 21 ∧ vaddr.toNat % 8 = 0

/-- An address below 512GB whose GB the tables of `InitPageTables` leave free. -/
structure Free (base : BitVec 64) : Prop where
  lt : base.toNat < 2 ^ 39
  ne_low : base.toNat / 2 ^ 30 ≠ 0
  ne_friend : base.toNat / 2 ^ 30 ≠ 4

/-- Memory as a friend finds it: the tables of `InitPageTables`, and zeros. -/
structure Fresh (P : Pages) (m : Bytes) : Prop where
  entries : P.Entries m
  pdpt : ∀ i < 512, i ≠ 0 → i ≠ 4 → m.read64 (slot P.pdpt i) = 0
  own : ∀ t ∈ [P.pd, P.pt], ∀ i < 512, m.read64 (slot t i) = 0

/-- A core that has come to `friend_main`. -/
def start (mmu : Mmu) (m : Bytes) : Paged := ⟨m, fun v => (mmu.walk m INITIAL_PML4T v).toList, 0, []⟩

namespace Pages

variable {P : Pages}

def all (P : Pages) : List (BitVec 64) := INITIAL_PML4T :: [P.pdpt, P.pd1, P.pd2, P.pd, P.pt]

theorem all_bounds {t : BitVec 64} (ht : t ∈ P.all) : t.toNat % 4096 = 0 ∧ t.toNat < 0x140000000 := by
  rcases List.mem_cons.mp ht with rfl | ht
  · decide
  · rw [show [P.pdpt, P.pd1, P.pd2, P.pd, P.pt] = [P.pdpt, P.pd1, P.pd2] ++ [P.pd, P.pt] from rfl,
      List.mem_append] at ht
    rcases ht with ht | ht
    · exact ⟨P.aligned t ht, (inFriend_iff.mp (P.inFriend t ht)).2⟩
    · exact ⟨P.aligned_own t ht, (inFriend_iff.mp (P.inFriend_own t ht)).2⟩

theorem inFriend_all {t : BitVec 64} (ht : t ∈ [P.pdpt, P.pd1, P.pd2, P.pd, P.pt]) : InFriend t := by
  rw [show [P.pdpt, P.pd1, P.pd2, P.pd, P.pt] = [P.pdpt, P.pd1, P.pd2] ++ [P.pd, P.pt] from rfl,
    List.mem_append] at ht
  exact ht.elim (P.inFriend t) (P.inFriend_own t)

theorem all_nodup : P.all.Nodup := by
  refine List.nodup_cons.mpr ⟨fun hmem => ?_, P.apart⟩
  exact absurd (P.inFriend_all hmem) (by decide)

theorem toNat_slot {t : BitVec 64} (ht : t ∈ P.all) {i : Nat} (hi : i < 512) : (slot t i).toNat = t.toNat + 8 * i := by
  obtain ⟨-, hlt⟩ := all_bounds ht
  rw [slot, BitVec.toNat_add, BitVec.toNat_ofNat]
  omega

theorem slot_inj {t t' : BitVec 64} (ht : t ∈ P.all) (ht' : t' ∈ P.all) {i j : Nat} (hi : i < 512) (hj : j < 512)
    (h : slot t i = slot t' j) : t = t' ∧ i = j := by
  obtain ⟨hal, -⟩ := all_bounds ht
  obtain ⟨hal', -⟩ := all_bounds ht'
  have heq := congrArg BitVec.toNat h
  rw [toNat_slot ht hi, toNat_slot ht' hj] at heq
  exact ⟨BitVec.eq_of_toNat_eq (by omega), by omega⟩

theorem read_write {m : Bytes} {v : BitVec 64} {t t' : BitVec 64} (ht : t ∈ P.all) (ht' : t' ∈ P.all) {i j : Nat}
    (hi : i < 512) (hj : j < 512) (hne : t ≠ t' ∨ i ≠ j) :
    (m.write64 (slot t i) v).read64 (slot t' j) = m.read64 (slot t' j) := by
  obtain ⟨hal, -⟩ := all_bounds ht
  obtain ⟨hal', -⟩ := all_bounds ht'
  have hs := toNat_slot ht hi
  have hs' := toNat_slot ht' hj
  refine Bytes.read64_write64_of_ne m v (by omega) (by omega) fun heq => ?_
  obtain ⟨htt, hij⟩ := slot_inj ht ht' hi hj heq
  exact hne.elim (fun h => h htt) fun h => h hij

/-- The entries the program writes. -/
def Own (P : Pages) (t : BitVec 64) (i : Nat) : Prop := t = P.pdpt ∧ i ≠ 0 ∧ i ≠ 4 ∨ t ∈ [P.pd, P.pt]

theorem own_pt (P : Pages) (k : Nat) : P.Own P.pt k := .inr (by simp)

theorem Own.mem {t : BitVec 64} {i : Nat} (h : P.Own t i) : t ∈ [P.pdpt, P.pd1, P.pd2, P.pd, P.pt] := by
  rcases h with ⟨rfl, -⟩ | h
  · exact List.mem_cons_self
  · rw [show [P.pdpt, P.pd1, P.pd2, P.pd, P.pt] = [P.pdpt, P.pd1, P.pd2] ++ [P.pd, P.pt] from rfl]
    exact List.mem_append_right _ h

theorem pages_subset {t : BitVec 64} (ht : t ∈ P.pages) : t ∈ P.all := by
  rw [all, show [P.pdpt, P.pd1, P.pd2, P.pd, P.pt] = [P.pdpt, P.pd1, P.pd2] ++ [P.pd, P.pt] from rfl, ← List.cons_append]
  exact List.mem_append_left _ ht

theorem not_pages {t : BitVec 64} (ht : t ∈ [P.pd, P.pt]) : t ∉ P.pages := by
  have hnd : (P.pages ++ [P.pd, P.pt]).Nodup := P.all_nodup
  exact fun hpage => (List.nodup_append.mp hnd).2.2 t hpage t ht rfl

theorem Own.apart {t : BitVec 64} {i : Nat} (h : P.Own t i) {c : Tables.Cell} (hc : c ∈ P.cells) :
    t ≠ c.page ∨ i ≠ c.index := by
  rcases h with ⟨rfl, h0, h4⟩ | ht
  · by_cases hpage : P.pdpt = c.page
    · refine .inr fun hi => ?_
      rcases (Tables.index_of_page hc).2.1 hpage.symm with hzero | hfour
      · exact h0 (hi.trans hzero)
      · exact h4 (hi.trans hfour)
    · exact .inl hpage
  · refine .inl fun hpage => P.not_pages ht ?_
    rw [hpage]
    exact (Tables.cell_bounds hc).1

theorem Own.entries {t : BitVec 64} {i : Nat} (h : P.Own t i) (hi : i < 512) {m : Bytes} (he : P.Entries m)
    (v : BitVec 64) : P.Entries (m.write64 (slot t i) v) := by
  have hread : ∀ {t' v' : BitVec 64} {j : Nat}, ⟨t', j, v'⟩ ∈ P.cells →
      (m.write64 (slot t i) v).read64 (slot t' j) = m.read64 (slot t' j) := by
    intro t' v' j hc
    obtain ⟨hpage, hindex⟩ := Tables.cell_bounds hc
    exact read_write (List.mem_cons_of_mem _ h.mem) (pages_subset hpage) hi hindex (h.apart hc)
  refine ⟨?_, ?_, ?_, ?_, fun j hj => ?_⟩
  · exact (hread (Tables.mem_cells.mpr (.inl rfl))).trans he.root
  · exact (hread (Tables.mem_cells.mpr (.inr (.inl rfl)))).trans he.low
  · exact (hread (Tables.mem_cells.mpr (.inr (.inr (.inl rfl))))).trans he.high
  · exact (hread (Tables.mem_cells.mpr (.inr (.inr (.inr (.inl rfl)))))).trans he.page
  · exact (hread (Tables.mem_cells.mpr (.inr (.inr (.inr (.inr ⟨j, hj, rfl⟩)))))).trans (he.friendPages j hj)

theorem link_own {t : BitVec 64} (ht : t ∈ [P.pd, P.pt]) : Link (t ||| kPageTableEntryFlags) t.toNat :=
  link_or (by decide) (P.aligned_own t ht) (inFriend_iff.mp (P.inFriend_own t ht)).2

end Pages

/-! ## Stores into the tables -/

section Stores
variable (mmu : Mmu) (wp : Bool) {P : Pages} {s : Paged}

/-- Friend memory is mapped to itself, whatever the processor keeps. -/
structure Direct (P : Pages) (s : Paged) : Prop where
  entries : P.Entries s.mem
  kept : ∀ v : BitVec 48, 0x100000000 ≤ v.toNat ∧ v.toNat < 0x140000000 →
    ∀ t ∈ s.tlb v, t = ⟨v.setWidth 64, true, true⟩

theorem Direct.pick (h : Direct P s) {t : BitVec 64} {i : Nat} (ho : P.Own t i) (hi : i < 512) (n : Nat) :
    s.pick mmu INITIAL_PML4T ((slot t i).setWidth 48) n = some ⟨slot t i, true, true⟩ := by
  have hall : t ∈ P.all := List.mem_cons_of_mem _ ho.mem
  have hslot := Pages.toNat_slot hall hi
  have hin := inFriend_iff.mp (Pages.inFriend_all ho.mem)
  obtain ⟨hal, hlt⟩ := Pages.all_bounds hall
  have hlow : ((slot t i).setWidth 48).toNat = (slot t i).toNat := by
    rw [BitVec.toNat_setWidth, Nat.mod_eq_of_lt (by omega)]
  have hwide : ((slot t i).setWidth 48).setWidth 64 = slot t i := by
    apply BitVec.eq_of_toNat_eq
    rw [BitVec.toNat_setWidth, hlow, Nat.mod_eq_of_lt (slot t i).isLt]
  have hfriend : 0x100000000 ≤ ((slot t i).setWidth 48).toNat ∧ ((slot t i).setWidth 48).toNat < 0x140000000 := by omega
  have hwalk : mmu.walk s.mem INITIAL_PML4T ((slot t i).setWidth 48) = some ⟨_, true, true⟩ :=
    h.entries.walk_friend hfriend
  rw [Paged.pick_eq (fun t' ht' => by rw [hwalk, h.kept _ hfriend t' ht']) n, hwalk, hwide]

theorem Direct.store (h : Direct P s) {t : BitVec 64} {i : Nat} (ho : P.Own t i) (hi : i < 512) (v : BitVec 64) (n : Nat) :
    Paged.exec mmu wp INITIAL_PML4T n s (.store (slot t i) v) = some (s.write mmu INITIAL_PML4T (slot t i) v) := by
  rw [Paged.exec, Paged.storeAt_eq (h.pick mmu ho hi n) (.inr rfl)]

theorem Direct.write (h : Direct P s) {t : BitVec 64} {i : Nat} (ho : P.Own t i) (hi : i < 512) (v : BitVec 64) :
    Direct P (s.write mmu INITIAL_PML4T (slot t i) v) := by
  have he := ho.entries hi h.entries v
  refine ⟨he, fun a ha t' ht' => ?_⟩
  rcases Paged.mem_write.mp ht' with hold | hnew
  · exact h.kept a ha t' hold
  · rw [he.walk_friend ha] at hnew
    exact (Option.some.inj hnew).symm

end Stores

/-! ## The 2MB of the program -/

section Region
variable (mmu : Mmu) (wp : Bool) {P : Pages} {base : BitVec 64} {h : History} {s : Paged}

def Region (base : BitVec 64) (v : BitVec 48) : Prop := v.toNat / 2 ^ 21 = base.toNat / 2 ^ 21

theorem Region.index {v : BitVec 48} (hv : Region base v) (hb : Free base) :
    index v 39 = 0 ∧ index v 30 = base.toNat / 2 ^ 30 ∧ index v 21 = base.toNat / 2 ^ 21 % 512 := by
  have hlt := hb.lt
  unfold Region at hv
  unfold Lib.index
  omega

theorem Region.of_vaddr {vaddr : BitVec 64} (hb : Free base) (hv : vaddr.toNat / 2 ^ 21 = base.toNat / 2 ^ 21) :
    Region base (vaddr.setWidth 48) ∧ (vaddr.setWidth 48).toNat = vaddr.toNat ∧
      Lib.index (vaddr.setWidth 48) 12 = pageIndex vaddr := by
  have hlt := hb.lt
  have hlow : (vaddr.setWidth 48).toNat = vaddr.toNat := by
    rw [BitVec.toNat_setWidth, Nat.mod_eq_of_lt (by omega)]
  refine ⟨?_, hlow, ?_⟩
  · rw [Region, hlow, hv]
  · rw [Lib.index, hlow, pageIndex]

def toFrame (v : BitVec 48) (frame : BitVec 64) : Translation := ⟨inFrame frame v.toNat, true, true⟩

structure Entered (P : Pages) (base : BitVec 64) (m : Bytes) : Prop where
  entries : P.Entries m
  directory : m.read64 (slot P.pdpt (base.toNat / 2 ^ 30)) = P.pd ||| kPageTableEntryFlags
  table : m.read64 (slot P.pd (base.toNat / 2 ^ 21 % 512)) = P.pt ||| kPageTableEntryFlags

namespace Entered

variable {m : Bytes} {v : BitVec 48}

theorem walk (h : Entered P base m) (hb : Free base) (hv : Region base v) :
    mmu.walk m INITIAL_PML4T v = (mmu.entry m P.pt (index v 12)).map fun e =>
      leaf ([P.pdpt ||| kPageTableEntryFlags] ++ [P.pd ||| kPageTableEntryFlags] ++ [P.pt ||| kPageTableEntryFlags, e])
        (field e 12 40 * 2 ^ 12) (v.toNat % 2 ^ 12) := by
  obtain ⟨h39, h30, h21⟩ := hv.index hb
  have hpd : Link (P.pd ||| kPageTableEntryFlags) P.pd.toNat := P.link_own (by simp)
  have hpt : Link (P.pt ||| kPageTableEntryFlags) P.pt.toNat := P.link_own (by simp)
  rw [h.entries.walk_root h39, walkPdpt_link hpd (by rw [h30]; exact h.directory), BitVec.ofNat_toNat,
    BitVec.setWidth_eq, walkPd_link hpt (by rw [h21]; exact h.table), BitVec.ofNat_toNat, BitVec.setWidth_eq]

theorem walk_small (h : Entered P base m) (hb : Free base) (hv : Region base v) {x : Nat} {w : Bool}
    (he : Small (m.read64 (slot P.pt (Lib.index v 12))) x w) :
    mmu.walk m INITIAL_PML4T v = some ⟨BitVec.ofNat 64 (x + v.toNat % 2 ^ 12), w, true⟩ := by
  have hpd : Link (P.pd ||| kPageTableEntryFlags) P.pd.toNat := P.link_own (by simp)
  have hpt : Link (P.pt ||| kPageTableEntryFlags) P.pt.toNat := P.link_own (by simp)
  rw [h.walk mmu hb hv, he.entry rfl, Option.map_some, leaf_small P.links.1 hpd hpt he]

theorem walk_absent (h : Entered P base m) (hb : Free base) (hv : Region base v)
    (he : m.read64 (slot P.pt (Lib.index v 12)) = 0) : mmu.walk m INITIAL_PML4T v = none := by
  rw [h.walk mmu hb hv, entry_of_zero he, Option.map_none]

theorem write (h : Entered P base m) (hb : Free base) {k : Nat} (hk : k < 512) (e : BitVec 64) :
    Entered P base (m.write64 (slot P.pt k) e) := by
  have hnd := P.apart
  simp only [List.nodup_cons, List.mem_cons, List.not_mem_nil, not_or, or_false] at hnd
  obtain ⟨⟨-, -, -, hpdpt⟩, -, -, hpd, -⟩ := hnd
  have hpt : P.pt ∈ P.all := by simp [Pages.all]
  have hlt := hb.lt
  refine ⟨(P.own_pt k).entries hk h.entries e, ?_, ?_⟩
  · exact (Pages.read_write hpt (by simp [Pages.all]) hk (by omega) (.inl (Ne.symm hpdpt))).trans h.directory
  · exact (Pages.read_write hpt (by simp [Pages.all]) hk (by omega) (.inl (Ne.symm hpd))).trans h.table

end Entered

/-- The tables have the last frame of every page. -/
structure Mapped (P : Pages) (base : BitVec 64) (h : History) (m : Bytes) : Prop extends Entered P base m where
  pages : ∀ k < 512, m.read64 (slot P.pt k) = ((h k).getLast?.map (· ||| kPageTableEntryFlags)).getD 0
  frames : ∀ k, ∀ frame ∈ h k, Frame frame

/-- **What an address is mapped to.** -/
theorem Mapped.walk {m : Bytes} (hm : Mapped P base h m) (hb : Free base) {v : BitVec 48} (hv : Region base v) :
    mmu.walk m INITIAL_PML4T v = (h (index v 12)).getLast?.map (toFrame v) := by
  have hpage := hm.pages _ (index_lt v 12)
  cases hlast : (h (index v 12)).getLast? with
  | none =>
      rw [hlast] at hpage
      exact hm.toEntered.walk_absent mmu hb hv hpage
  | some frame =>
      rw [hlast] at hpage
      obtain ⟨hal, hlt⟩ := hm.frames _ frame (List.mem_of_getLast? hlast)
      have hlink : Link (frame ||| kPageTableEntryFlags) frame.toNat := link_or (by decide) hal hlt
      exact hm.toEntered.walk_small mmu hb hv (by rw [hpage]; exact hlink.small)

/-- Before the page table is in the page directory there is nothing. -/
theorem walk_none {m : Bytes} (he : P.Entries m) (hb : Free base) {v : BitVec 48} (hv : Region base v)
    (h : m.read64 (slot P.pdpt (base.toNat / 2 ^ 30)) = 0 ∨
      m.read64 (slot P.pdpt (base.toNat / 2 ^ 30)) = P.pd ||| kPageTableEntryFlags ∧
        m.read64 (slot P.pd (base.toNat / 2 ^ 21 % 512)) = 0) : mmu.walk m INITIAL_PML4T v = none := by
  obtain ⟨h39, h30, h21⟩ := hv.index hb
  rw [he.walk_root h39]
  rcases h with hzero | ⟨hdir, hzero⟩
  · exact walkPdpt_none (by rw [h30]; exact hzero)
  · have hpd : Link (P.pd ||| kPageTableEntryFlags) P.pd.toNat := P.link_own (by simp)
    rw [walkPdpt_link hpd (by rw [h30]; exact hdir), BitVec.ofNat_toNat, BitVec.setWidth_eq]
    exact walkPd_none (by rw [h21]; exact hzero)

/-- The processor may have kept any of the frames, and nothing else. -/
structure Inv (P : Pages) (base : BitVec 64) (h : History) (s : Paged) : Prop where
  direct : Direct P s
  mapped : Mapped P base h s.mem
  kept : ∀ v, Region base v → ∀ t, t ∈ s.tlb v ↔ ∃ frame ∈ h (index v 12), toFrame v frame = t

/-! ## The steps -/

theorem slot_of_index {t i : BitVec 64} {k : Nat} (hi : i.toNat = k) : t + 8 * i = slot t k := by
  rw [slot]
  congr 1
  apply BitVec.eq_of_toNat_eq
  rw [BitVec.toNat_mul, BitVec.toNat_ofNat, toNat_eight, hi]

theorem slot_pt {vaddr : BitVec 64} : P.pt + 8 * (vaddr % k2MB / k4KB) = slot P.pt (pageIndex vaddr) := by
  apply slot_of_index
  rw [BitVec.toNat_udiv, BitVec.toNat_umod, show k2MB.toNat = 2 ^ 21 from rfl, show k4KB.toNat = 2 ^ 12 from rfl, pageIndex]
  omega

theorem pageIndex_lt (vaddr : BitVec 64) : pageIndex vaddr < 512 := Nat.mod_lt _ (by decide)

theorem Mapped.setPage {m : Bytes} (hm : Mapped P base h m) (hb : Free base) (vaddr : BitVec 64) {frame : BitVec 64}
    (hf : Frame frame) :
    Mapped P base ((Op.setPage vaddr frame).track h)
      (m.write64 (slot P.pt (pageIndex vaddr)) (frame ||| kPageTableEntryFlags)) := by
  have hk := pageIndex_lt vaddr
  have hpt : P.pt ∈ P.all := by simp [Pages.all]
  refine ⟨hm.toEntered.write hb hk _, fun k hk' => ?_, fun k f hf' => ?_⟩
  · by_cases hkk : k = pageIndex vaddr
    · subst hkk
      rw [Bytes.read64_write64_self, Op.track, Function.update_self, List.getLast?_concat]
      rfl
    · rw [Pages.read_write hpt hpt hk hk' (.inr (Ne.symm hkk)), hm.pages k hk', Op.track, Function.update_of_ne hkk]
  · by_cases hkk : k = pageIndex vaddr
    · subst hkk
      rw [Op.track, Function.update_self, List.mem_append, List.mem_singleton] at hf'
      exact hf'.elim (hm.frames _ f) fun he => he ▸ hf
    · rw [Op.track, Function.update_of_ne hkk] at hf'
      exact hm.frames k f hf'

/-- An entry of the page table is written: the frame may be kept from now on. -/
theorem Inv.setPage (hi : Inv P base h s) (hb : Free base) (vaddr : BitVec 64) {frame : BitVec 64} (hf : Frame frame) :
    ∃ s', (∀ n, Paged.exec mmu wp INITIAL_PML4T n s ((Op.setPage vaddr frame).access P) = some s') ∧
      Inv P base ((Op.setPage vaddr frame).track h) s' ∧ s'.loads = s.loads := by
  have hk := pageIndex_lt vaddr
  have hm := hi.mapped.setPage hb vaddr hf
  refine ⟨_, fun n => ?_, ⟨hi.direct.write mmu (P.own_pt (pageIndex vaddr)) hk _, hm, fun v hv t => ?_⟩, rfl⟩
  · rw [Op.access, slot_pt]
    exact hi.direct.store mmu wp (P.own_pt _) hk _ n
  · rw [Paged.mem_write, hm.walk mmu hb hv, hi.kept v hv]
    by_cases hkk : index v 12 = pageIndex vaddr
    · rw [hkk, Op.track, Function.update_self, List.getLast?_concat, Option.map_some, Option.some_inj]
      simp only [List.mem_append, List.mem_singleton, or_and_right, exists_or, exists_eq_left]
    · rw [Op.track, Function.update_of_ne hkk, or_iff_left_iff_imp, Option.map_eq_some_iff]
      rintro ⟨f, hlast, hft⟩
      exact ⟨f, List.mem_of_getLast? hlast, hft⟩

theorem Mapped.invlpg {m : Bytes} (hm : Mapped P base h m) (vaddr : BitVec 64) :
    Mapped P base ((Op.invlpg vaddr).track h) m := by
  refine ⟨hm.toEntered, fun k hk => ?_, fun k f hf => ?_⟩
  · by_cases hkk : k = pageIndex vaddr
    · subst hkk
      rw [hm.pages _ hk, Op.track, Function.update_self]
      cases (h (pageIndex vaddr)).getLast? <;> rfl
    · rw [hm.pages k hk, Op.track, Function.update_of_ne hkk]
  · by_cases hkk : k = pageIndex vaddr
    · subst hkk
      rw [Op.track, Function.update_self, Option.mem_toList] at hf
      exact hm.frames _ f (List.mem_of_getLast? hf)
    · rw [Op.track, Function.update_of_ne hkk] at hf
      exact hm.frames k f hf

/-- A flush: of the page only its last frame may be kept. -/
theorem Inv.invlpg (hi : Inv P base h s) (hb : Free base) {vaddr : BitVec 64}
    (hv : vaddr.toNat / 2 ^ 21 = base.toNat / 2 ^ 21) :
    Inv P base ((Op.invlpg vaddr).track h) (s.flush mmu INITIAL_PML4T (vaddr.setWidth 48)) := by
  obtain ⟨hreg, hlow, hindex⟩ := Region.of_vaddr hb hv
  refine ⟨⟨hi.direct.entries, fun a ha t ht => ?_⟩, hi.mapped.invlpg vaddr, fun v hv' t => ?_⟩
  · rw [Paged.flush] at ht
    dsimp only at ht
    split at ht
    · rw [hi.direct.entries.walk_friend ha, Option.toList_some, List.mem_singleton] at ht
      exact ht
    · exact hi.direct.kept a ha t ht
  · have hpage : v.toNat / 2 ^ 12 = (vaddr.setWidth 48).toNat / 2 ^ 12 ↔ index v 12 = pageIndex vaddr := by
      unfold Region at hv' hreg
      rw [← hindex, Lib.index, Lib.index]
      omega
    rw [Paged.flush]
    dsimp only
    by_cases hkk : index v 12 = pageIndex vaddr
    · rw [if_pos (hpage.mpr hkk), hi.mapped.walk mmu hb hv', hkk, Op.track, Function.update_self, Option.mem_toList,
        Option.map_eq_some_iff]
      simp only [Option.mem_toList]
    · rw [if_neg fun hp => hkk (hpage.mp hp), hi.kept v hv', Op.track, Function.update_of_ne hkk]

theorem Inv.load (hi : Inv P base h s) (hb : Free base) {vaddr : BitVec 64}
    (hv : vaddr.toNat / 2 ^ 21 = base.toNat / 2 ^ 21) (hc : (Op.showMemdata vaddr).Certain h) :
    ∃ frame, (h (pageIndex vaddr)).getLast? = some frame ∧
      ∀ n, Paged.exec mmu wp INITIAL_PML4T n s (.load vaddr) = some (s.loaded (inFrame frame vaddr.toNat)) := by
  obtain ⟨hreg, hlow, hindex⟩ := Region.of_vaddr hb hv
  obtain ⟨hne, hall⟩ := hc
  have hlast := List.getLast?_eq_some_getLast hne
  have hwalk := hi.mapped.walk mmu hb hreg
  rw [hindex, hlast, Option.map_some] at hwalk
  refine ⟨_, hlast, fun n => ?_⟩
  have hpick : s.pick mmu INITIAL_PML4T (vaddr.setWidth 48) n = mmu.walk s.mem INITIAL_PML4T (vaddr.setWidth 48) := by
    refine Paged.pick_eq (fun t ht => ?_) n
    obtain ⟨f, hf, rfl⟩ := (hi.kept _ hreg t).mp ht
    rw [hindex] at hf
    rw [hwalk, Option.some.inj (hlast.symm.trans (hall f hf))]
  rw [Paged.exec, hpick, hwalk, Option.map_some]
  dsimp only [toFrame]
  rw [hlow]

theorem Inv.fault (hi : Inv P base h s) (hb : Free base) {vaddr : BitVec 64}
    (hv : vaddr.toNat / 2 ^ 21 = base.toNat / 2 ^ 21) (hnil : h (pageIndex vaddr) = []) (n : Nat) :
    Paged.exec mmu wp INITIAL_PML4T n s (.load vaddr) = none := by
  obtain ⟨hreg, -, hindex⟩ := Region.of_vaddr hb hv
  have hwalk := hi.mapped.walk mmu hb hreg
  rw [hindex, hnil] at hwalk
  have hpick : s.pick mmu INITIAL_PML4T (vaddr.setWidth 48) n = mmu.walk s.mem INITIAL_PML4T (vaddr.setWidth 48) := by
    refine Paged.pick_eq (fun t ht => ?_) n
    obtain ⟨f, hf, -⟩ := (hi.kept _ hreg t).mp ht
    rw [hindex, hnil] at hf
    exact absurd hf List.not_mem_nil
  rw [Paged.exec, hpick, hwalk]
  rfl

/-- Of a page that has had another frame the load may read there. -/
theorem Inv.stale (hi : Inv P base h s) (hb : Free base) {vaddr frame : BitVec 64}
    (hv : vaddr.toNat / 2 ^ 21 = base.toNat / 2 ^ 21) (hf : frame ∈ h (pageIndex vaddr)) :
    ∃ n, Paged.exec mmu wp INITIAL_PML4T n s (.load vaddr) =
      some (s.loaded (inFrame frame vaddr.toNat)) := by
  obtain ⟨hreg, hlow, hindex⟩ := Region.of_vaddr hb hv
  rw [← hindex] at hf
  have hkept := (hi.kept _ hreg _).mpr ⟨frame, hf, rfl⟩
  obtain ⟨n, hn⟩ : ∃ n, s.pick mmu INITIAL_PML4T (vaddr.setWidth 48) n = some (toFrame (vaddr.setWidth 48) frame) :=
    Paged.pick_kept hkept
  refine ⟨n, ?_⟩
  rw [Paged.exec, hn, Option.map_some]
  dsimp only [toFrame]
  rw [hlow]

theorem inFrame_inj {f f' : BitVec 64} (hf : Frame f) (hf' : Frame f') {o : Nat} (h : inFrame f o = inFrame f' o) :
    f = f' := by
  have hnat := congrArg BitVec.toNat h
  obtain ⟨-, hlt⟩ := hf
  obtain ⟨-, hlt'⟩ := hf'
  rw [inFrame, inFrame, BitVec.toNat_ofNat, BitVec.toNat_ofNat] at hnat
  exact BitVec.eq_of_toNat_eq (by omega)

/-! ## Whole runs -/

/-- **When the loads read by the entries that are in the table**, from any state on. -/
theorem Inv.runs_iff {ops : List Op} (hi : Inv P base h s) (hb : Free base) (hops : ∀ op ∈ ops, op.Within base) :
    (∀ ns, ∃ s', Paged.runs mmu wp INITIAL_PML4T (ops.map (Op.access P)) ns s = some s' ∧
      s'.loads = s.loads ++ reads h ops) ↔ Certain h ops := by
  induction ops generalizing h s with
  | nil => exact iff_of_true (fun ns => ⟨s, rfl, (List.append_nil _).symm⟩) trivial
  | cons op ops ih =>
      have hrest : ∀ op' ∈ ops, op'.Within base := fun op' hop => hops op' (List.mem_cons_of_mem _ hop)
      have hop := hops op List.mem_cons_self
      rw [List.map_cons, Certain]
      cases op with
      | setPage vaddr frame =>
          obtain ⟨s₁, hexec, hi₁, hloads⟩ := hi.setPage mmu wp hb vaddr hop.2
          rw [Paged.forall_runs_cons hexec, reads_setPage, ← hloads, ih hi₁ hrest]
          exact (and_iff_right trivial).symm
      | invlpg vaddr =>
          have hexec : ∀ n, Paged.exec mmu wp INITIAL_PML4T n s ((Op.invlpg vaddr).access P) =
              some (s.flush mmu INITIAL_PML4T (vaddr.setWidth 48)) := fun _ => rfl
          rw [Paged.forall_runs_cons hexec, reads_invlpg]
          exact (ih (hi.invlpg mmu hb hop) hrest).trans (and_iff_right trivial).symm
      | showMemdata vaddr =>
          by_cases hc : (Op.showMemdata vaddr).Certain h
          · obtain ⟨frame, hlast, hexec⟩ := hi.load mmu wp hb hop.1 hc
            rw [Op.access, Paged.forall_runs_cons hexec, reads, hlast, Option.map_some, Option.toList_some,
              ← List.append_assoc]
            have hi₁ : Inv P base h (s.loaded (inFrame frame vaddr.toNat)) :=
              ⟨⟨hi.direct.entries, hi.direct.kept⟩, hi.mapped, hi.kept⟩
            exact (ih hi₁ hrest).trans (and_iff_right hc).symm
          · refine iff_of_false (fun hall => ?_) fun hcon => hc hcon.1
            by_cases hnil : h (pageIndex vaddr) = []
            · obtain ⟨s', hrun, -⟩ := hall []
              rw [Op.access, Paged.runs, hi.fault mmu wp hb hop.1 hnil] at hrun
              cases hrun
            · -- the processor uses a frame that is not the last
              obtain ⟨frame, hf, hne⟩ : ∃ frame ∈ h (pageIndex vaddr), (h (pageIndex vaddr)).getLast? ≠ some frame := by
                by_contra hno
                push Not at hno
                exact hc ⟨hnil, hno⟩
              obtain ⟨n, hn⟩ := hi.stale mmu wp hb hop.1 hf
              obtain ⟨s', hrun, hloads⟩ := hall [n]
              rw [Op.access, Paged.runs_cons hn] at hrun
              obtain ⟨l, hl⟩ := Paged.loads_runs hrun
              rw [hloads, reads, List.getLast?_eq_some_getLast hnil, Option.map_some, Option.toList_some, Paged.loaded,
                List.append_assoc, List.append_cancel_left_eq] at hl
              have heq := inFrame_inj (hi.mapped.frames _ _ hf) (hi.mapped.frames _ _ (List.getLast_mem hnil))
                (List.cons.inj hl).1
              exact hne (by rw [List.getLast?_eq_some_getLast hnil, heq])

theorem slot_pdpt (hb : Free base) : P.pdpt + 8 * (base % k512GB / k1GB) = slot P.pdpt (base.toNat / 2 ^ 30) := by
  have hlt := hb.lt
  apply slot_of_index
  rw [BitVec.toNat_udiv, BitVec.toNat_umod, show k512GB.toNat = 2 ^ 39 from rfl, show k1GB.toNat = 2 ^ 30 from rfl]
  omega

theorem slot_pd : P.pd + 8 * (base % k1GB / k2MB) = slot P.pd (base.toNat / 2 ^ 21 % 512) := by
  apply slot_of_index
  rw [BitVec.toNat_udiv, BitVec.toNat_umod, show k1GB.toNat = 2 ^ 30 from rfl, show k2MB.toNat = 2 ^ 21 from rfl]
  omega

/-- The page directory is entered, the page table is not. -/
structure Between (P : Pages) (base : BitVec 64) (s : Paged) : Prop where
  direct : Direct P s
  directory : s.mem.read64 (slot P.pdpt (base.toNat / 2 ^ 30)) = P.pd ||| kPageTableEntryFlags
  own : ∀ t ∈ [P.pd, P.pt], ∀ i < 512, s.mem.read64 (slot t i) = 0
  kept : ∀ v, Region base v → ∀ t, t ∉ s.tlb v

theorem direct_start {m : Bytes} (hm : Fresh P m) : Direct P (start mmu m) := by
  refine ⟨hm.entries, fun v hv t ht => ?_⟩
  have hwalk : mmu.walk m INITIAL_PML4T v = some t := Option.mem_toList.mp ht
  rw [hm.entries.walk_friend hv] at hwalk
  exact (Option.some.inj hwalk).symm

/-- `friend_main` enters its page directory, -/
theorem enter_pd {m : Bytes} (hm : Fresh P m) (hb : Free base) :
    ∃ s, (∀ n, Paged.exec mmu wp INITIAL_PML4T n (start mmu m)
        (.store (P.pdpt + 8 * (base % k512GB / k1GB)) (v2p P.pd ||| kPageTableEntryFlags)) = some s) ∧
      Between P base s ∧ s.loads = [] := by
  have hi : base.toNat / 2 ^ 30 < 512 := by
    have := hb.lt
    omega
  have ho : P.Own P.pdpt (base.toNat / 2 ^ 30) := .inl ⟨rfl, hb.ne_low, hb.ne_friend⟩
  have hstart := direct_start mmu hm
  have hnd := P.apart
  simp only [List.nodup_cons, List.mem_cons, List.not_mem_nil, not_or, or_false] at hnd
  obtain ⟨⟨-, -, hpd, hpt⟩, -⟩ := hnd
  have hdirect := hstart.write mmu ho hi (v2p P.pd ||| kPageTableEntryFlags)
  have hself : (m.write64 (slot P.pdpt (base.toNat / 2 ^ 30)) (v2p P.pd ||| kPageTableEntryFlags)).read64
      (slot P.pdpt (base.toNat / 2 ^ 30)) = P.pd ||| kPageTableEntryFlags := Bytes.read64_write64_self ..
  have hown : ∀ t ∈ [P.pd, P.pt], ∀ i < 512,
      (m.write64 (slot P.pdpt (base.toNat / 2 ^ 30)) (v2p P.pd ||| kPageTableEntryFlags)).read64 (slot t i) = 0 := by
    intro t ht i hi'
    have hall : t ∈ P.all := List.mem_cons_of_mem _ (Pages.Own.mem (i := i) (.inr ht))
    have hne : P.pdpt ≠ t := by
      rcases List.mem_pair.mp ht with rfl | rfl
      · exact hpd
      · exact hpt
    exact (Pages.read_write (by simp [Pages.all]) hall hi hi' (.inl hne)).trans (hm.own t ht i hi')
  refine ⟨_, fun n => ?_, ⟨hdirect, hself, hown, fun v hv t ht => ?_⟩, rfl⟩
  · rw [slot_pdpt hb]
    exact hstart.store mmu wp ho hi _ n
  · rcases Paged.mem_write.mp ht with hold | hnew
    · have hwalk := walk_none mmu hm.entries hb hv (.inl (hm.pdpt _ hi hb.ne_low hb.ne_friend))
      cases hwalk.symm.trans (Option.mem_toList.mp hold)
    · have hwalk := walk_none mmu hdirect.entries hb hv
        (.inr ⟨hself, hown P.pd (by simp) _ (Nat.mod_lt _ (by decide))⟩)
      cases hwalk.symm.trans hnew

/-- and in it its page table. -/
theorem Between.enter_pt (h : Between P base s) (hb : Free base) :
    ∃ s', (∀ n, Paged.exec mmu wp INITIAL_PML4T n s
        (.store (P.pd + 8 * (base % k1GB / k2MB)) (v2p P.pt ||| kPageTableEntryFlags)) = some s') ∧
      Inv P base (fun _ => []) s' ∧ s'.loads = s.loads := by
  have hi : base.toNat / 2 ^ 21 % 512 < 512 := Nat.mod_lt _ (by decide)
  have ho : P.Own P.pd (base.toNat / 2 ^ 21 % 512) := .inr (by simp)
  have hnd := P.apart
  simp only [List.nodup_cons, List.mem_cons, List.not_mem_nil, not_or, or_false] at hnd
  obtain ⟨⟨-, -, h14, -⟩, -, -, h45, -⟩ := hnd
  have hlt := hb.lt
  have hpd : P.pd ∈ P.all := by simp [Pages.all]
  have hdirect := h.direct.write mmu ho hi (v2p P.pt ||| kPageTableEntryFlags)
  have hmapped : Mapped P base (fun _ => [])
      (s.mem.write64 (slot P.pd (base.toNat / 2 ^ 21 % 512)) (v2p P.pt ||| kPageTableEntryFlags)) := by
    refine ⟨⟨hdirect.entries, ?_, Bytes.read64_write64_self ..⟩, fun k hk => ?_, fun _ f hf => absurd hf List.not_mem_nil⟩
    · exact (Pages.read_write hpd (by simp [Pages.all]) hi (by omega) (.inl (Ne.symm h14))).trans h.directory
    · exact (Pages.read_write hpd (by simp [Pages.all]) hi hk (.inl h45)).trans (h.own P.pt (by simp) k hk)
  refine ⟨_, fun n => ?_, ⟨hdirect, hmapped, fun v hv t => ?_⟩, rfl⟩
  · rw [slot_pd]
    exact h.direct.store mmu wp ho hi _ n
  · refine iff_of_false (fun ht => ?_) fun ⟨f, hf, _⟩ => absurd hf List.not_mem_nil
    rcases Paged.mem_write.mp ht with hold | hnew
    · exact h.kept v hv t hold
    · cases (hmapped.walk mmu hb hv).symm.trans hnew

/-- **When the loads read by the entries that are in the table.** A friend enters its two tables for a free part of its
address space and goes on with entries, flushes and loads of aligned words there. Whatever translations the processor
keeps and uses, no store and no load faults and every load reads in the frame its page is mapped to, iff every page
that is loaded is mapped then and has been flushed since it had another frame. -/
theorem shows_current_iff {m : Bytes} (hm : Fresh P m) (hb : Free base) {ops : List Op}
    (hops : ∀ op ∈ ops, op.Within base) :
    (∀ ns, ∃ s, Paged.runs mmu wp INITIAL_PML4T (P.enter base ++ ops.map (Op.access P)) ns (start mmu m) = some s ∧
      s.loads = reads (fun _ => []) ops) ↔ Certain (fun _ => []) ops := by
  obtain ⟨s₁, hexec₁, hbetween, hloads₁⟩ := enter_pd mmu wp hm hb
  obtain ⟨s₂, hexec₂, hinv, hloads₂⟩ := hbetween.enter_pt mmu wp hb
  have hiff := hinv.runs_iff mmu wp hb hops
  rw [hloads₂, hloads₁, List.nil_append] at hiff
  rw [Pages.enter, List.cons_append, List.cons_append, List.nil_append, Paged.forall_runs_cons hexec₁,
    Paged.forall_runs_cons hexec₂, hiff]

end Region

/-! ## The tutorial -/

def samplePages : Pages where
  toTables := Hakase.sampleTables
  pd := 0x100004000
  pt := 0x100005000
  inFriend_own := by simp [inFriend_iff]
  aligned_own := by simp
  apart := by simp [Hakase.sampleTables]

/-- Memory with the tables of `InitPageTables` and zeros. -/
def tablesOnly (P : Pages) : Bytes := Tables.install (fun _ => 0) P.cells

theorem fresh_tablesOnly (P : Pages) : Fresh P (tablesOnly P) := by
  have hzero : ∀ {t : BitVec 64} {i : Nat}, P.Own t i → i < 512 → (tablesOnly P).read64 (slot t i) = 0 := by
    intro t i ho hi
    have ht : t ∈ P.all := List.mem_cons_of_mem _ ho.mem
    obtain ⟨hal, -⟩ := Pages.all_bounds ht
    have hslot := Pages.toNat_slot ht hi
    refine (Tables.read_install_other _ (by omega) fun c hc heq => ?_).trans (Bytes.read64_zero _)
    obtain ⟨hpage, hindex⟩ := Tables.cell_bounds hc
    obtain ⟨ht', hi'⟩ := Pages.slot_inj ht (Pages.pages_subset hpage) hi hindex heq.symm
    exact (ho.apart hc).elim (fun h => h ht') fun h => h hi'
  exact ⟨Tables.entries_install _, fun i hi h0 h4 => hzero (.inl ⟨rfl, h0, h4⟩) hi, fun t ht i hi => hzero (.inr ht) hi⟩

/-- The tutorial shows what it has mapped; without its `invlpg` it might show the page of before. -/
theorem mapping_shows :
    (∀ ns, ∃ s, Paged.runs Hakase.sampleMmu false INITIAL_PML4T
      (samplePages.enter 0x80000000 ++ mapping.map (Op.access samplePages)) ns
      (start Hakase.sampleMmu (tablesOnly samplePages)) = some s ∧
      s.loads = [0x100000000, 0x100001000, 0x100000000, 0x100001000]) ∧
    ¬ ∀ ns, ∃ s, Paged.runs Hakase.sampleMmu false INITIAL_PML4T
      (samplePages.enter 0x80000000 ++ (mapping.eraseIdx 3).map (Op.access samplePages)) ns
      (start Hakase.sampleMmu (tablesOnly samplePages)) = some s ∧
      s.loads = reads (fun _ => []) (mapping.eraseIdx 3) := by
  have hfree : Free 0x80000000 := ⟨by decide, by decide, by decide⟩
  have hops : ∀ op ∈ mapping, op.Within 0x80000000 := by
    simp [mapping, Op.Within, Frame]
  refine ⟨?_, fun hall => ?_⟩
  · exact (shows_current_iff Hakase.sampleMmu false (fresh_tablesOnly samplePages) hfree hops).mpr (by decide +kernel)
  · have hcertain := (shows_current_iff Hakase.sampleMmu false (fresh_tablesOnly samplePages) hfree
      fun op hop => hops op (List.mem_of_mem_eraseIdx hop)).mp hall
    exact absurd hcertain (by decide +kernel)

end Toshokan.Tutorial
