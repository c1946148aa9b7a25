import Toshokan.Hakase.Effect
import Toshokan.Hakase.PageTables
import Toshokan.Hakase.Setup

/-!
# A fresh start, whatever the last run left

`mmap_friend_mem` clears the first 4MB of friend memory only; the rest keeps what the last run left, unless `Deploy` writes
there.

* `Layout.writes` : what `setup` writes to friend memory after `Deploy`; `started_apply` : each byte that it leaves;
* `Renewed` : the bytes that have to be fresh; `FreshStart` : two memories after `setup`, the same there and as the image
  wants them;
* `Settled` : the bytes that do not depend on the memory before; `fresh_start_iff` : `setup` gives a fresh start iff all
  renewed bytes are settled; `settled_of_exact` : so they are unless `Deploy` misses entries of the tables.
-/

namespace Toshokan.Hakase
open Lib (Bytes Range)
open Tables (Cell slot install)

/-! ## Import pointers -/

section Patch
variable {exports : List ExportSymbolContainer}

theorem read64_patch_of_apart (m : Bytes) {b : BitVec 64} (hb : b.toNat + 8 ≤ 2 ^ 64)
    (hin : ∀ c ∈ exports, c.sharedVarPtr.toNat + 8 ≤ 0x140000000)
    (h : ∀ c ∈ exports, c.sharedVarPtr.toNat + 8 ≤ b.toNat ∨ b.toNat + 8 ≤ c.sharedVarPtr.toNat) :
    (patch exports m).read64 b = m.read64 b := by
  unfold patch
  induction exports generalizing m with
  | nil => rfl
  | cons c exports ih =>
      have hc := hin c List.mem_cons_self
      rw [List.foldl_cons, ih _ (fun d hd => hin d (List.mem_cons_of_mem _ hd)) fun d hd => h d (List.mem_cons_of_mem _ hd)]
      exact Bytes.read64_write64_apart m _ (by omega) hb (h c List.mem_cons_self)

theorem read64_patch (m : Bytes) (hin : ∀ c ∈ exports, c.sharedVarPtr.toNat + 8 ≤ 0x140000000)
    (hapart : exports.Pairwise fun c d =>
      c.sharedVarPtr.toNat + 8 ≤ d.sharedVarPtr.toNat ∨ d.sharedVarPtr.toNat + 8 ≤ c.sharedVarPtr.toNat)
    {c : ExportSymbolContainer} (hc : c ∈ exports) : (patch exports m).read64 c.sharedVarPtr = c.hakaseVarPtr := by
  induction exports generalizing m with
  | nil => cases hc
  | cons d exports ih =>
      obtain ⟨hd, hrest⟩ := List.pairwise_cons.mp hapart
      have hin' : ∀ c ∈ exports, c.sharedVarPtr.toNat + 8 ≤ 0x140000000 := fun c hc => hin c (List.mem_cons_of_mem _ hc)
      rcases List.mem_cons.mp hc with rfl | hc
      · have hlt := hin c List.mem_cons_self
        refine (read64_patch_of_apart (m.write64 _ _) (by omega) hin' fun d' hd' => (hd d' hd').symm).trans ?_
        exact Bytes.read64_write64_self m _ _
      · exact ih (m.write64 _ _) hin' hrest hc

end Patch

/-! ## The bytes that `setup` leaves -/

/-- The entries and the import pointers that are written after `Deploy`. -/
def Layout.writes (L : Layout) : List (BitVec 64 × BitVec 64) :=
  L.cells.map Cell.write ++ L.exports.map fun c => (c.sharedVarPtr, c.hakaseVarPtr)

/-- The memory with the trampoline code and the entry point in it. -/
def trampoline (bin : Friend16) (entry : BitVec 64) (m : Bytes) : Bytes :=
  (m.copy ⟨TRAMPOLINE_ADDR, bin.size⟩ bin.start).write64 (TRAMPOLINE_ADDR + 8) entry

section
variable {L : Layout} {bin : Friend16} {e : ElfLoader} {m : Bytes} {a : BitVec 64}

theorem started_apply (L : Layout) (bin : Friend16) (e : ElfLoader) (m : Bytes) (a : BitVec 64) :
    started L bin e m a =
      ((L.writes.reverse.find? fun w => (Range.mk w.1 8).covers a).map fun w => Bytes.byte w.2 (a - w.1)).getD
        (trampoline bin e.getEntry (e.deploy (m.copy friendHead fun _ => 0)).2.mem a) := by
  have hfold : started L bin e m = L.writes.foldl (fun m w => m.copy ⟨w.1, 8⟩ (Bytes.byte w.2))
      (trampoline bin e.getEntry (e.deploy (m.copy friendHead fun _ => 0)).2.mem) := by
    unfold started patch Loader16.installed install Layout.writes
    rw [List.foldl_append, List.foldl_map (f := fun c : ExportSymbolContainer => (c.sharedVarPtr, c.hakaseVarPtr))]
    rfl
  rw [hfold]
  exact Bytes.foldl_copy (fun w : BitVec 64 × BitVec 64 => Range.mk w.1 8) (fun w => Bytes.byte w.2) L.writes _ a

theorem trampoline_of_inFriend (hsize : bin.size ≤ PAGE_SIZE) (entry : BitVec 64) (m : Bytes) (ha : InFriend a) :
    trampoline bin entry m a = m a := by
  have hsize' : bin.size.toNat ≤ 0x1000 := hsize
  have hbounds := inFriend_iff.mp ha
  unfold trampoline Bytes.write64
  rw [Bytes.copy_of_not_covers, Bytes.copy_of_not_covers]
  · rw [← Bool.not_eq_true, Range.covers_iff (by rw [toNat_trampoline_addr]; dsimp only; omega), toNat_trampoline_addr]
    dsimp only
    omega
  · rw [← Bool.not_eq_true, Range.covers_iff (by decide), show (TRAMPOLINE_ADDR + 8).toNat = 0x70008 from rfl,
      Lib.toNat_eight]
    omega

/-- A byte that is written neither as an entry nor as part of an import pointer. -/
theorem started_of_not_written (hsize : bin.size ≤ PAGE_SIZE) (ha : InFriend a)
    (h : ∀ w ∈ L.writes, (Range.mk w.1 8).covers a = false) :
    started L bin e m a = (e.deploy (m.copy friendHead fun _ => 0)).2.mem a := by
  have hnone : (L.writes.reverse.find? fun w => (Range.mk w.1 8).covers a) = none := by
    rw [List.find?_eq_none]
    intro w hw hc
    rw [h w (List.mem_reverse.mp hw)] at hc
    cases hc
  rw [started_apply, hnone, Option.map_none, Option.getD_none, trampoline_of_inFriend hsize _ _ ha]

/-- A byte of an entry or an import pointer does not depend on the memory before. -/
theorem started_of_written {w : BitVec 64 × BitVec 64} (hw : w ∈ L.writes) (hc : (Range.mk w.1 8).covers a = true)
    (m' : Bytes) : started L bin e m a = started L bin e m' a := by
  rw [started_apply, started_apply]
  cases hf : L.writes.reverse.find? fun w => (Range.mk w.1 8).covers a with
  | none =>
      rw [List.find?_eq_none] at hf
      exact absurd hc (hf w (List.mem_reverse.mpr hw))
  | some w' => rfl

/-! ## Fresh bytes -/

theorem deploy_of_set (hok : (e.deploy m).1 = true)
    (h : friendHead.covers a = true ∨ ∃ r ∈ e.ranges, r.covers a = true) :
    (e.deploy (m.copy friendHead fun _ => 0)).2.mem a = (e.deploy fun _ => 0).2.mem a := by
  rw [e.deploy_mem _ (deploy_fst m _ ▸ hok), e.deploy_mem _ (deploy_fst m _ ▸ hok)]
  by_cases hb : e.bss.any (fun i => i.range.covers a) = true
  · rw [if_pos hb, if_pos hb]
  · rw [if_neg hb, if_neg hb]
    cases hf : e.loads.reverse.find? fun i => i.range.covers a with
    | some i => rfl
    | none =>
        rw [List.find?_eq_none] at hf
        rw [List.any_eq_true] at hb
        rw [Option.map_none, Option.getD_none, Option.getD_none]
        rcases h with hhead | ⟨r, hr, hc⟩
        · exact Bytes.copy_of_covers m _ hhead
        · rcases List.mem_append.mp hr with hr | hr
          · obtain ⟨i, hi, rfl⟩ := List.mem_map.mp hr
            exact absurd hc (hf i (List.mem_reverse.mpr hi))
          · obtain ⟨i, hi, rfl⟩ := List.mem_map.mp hr
            exact absurd ⟨i, hi, hc⟩ hb

theorem deploy_of_not_set (hok : (e.deploy m).1 = true) (hhead : friendHead.covers a = false)
    (h : ∀ r ∈ e.ranges, r.covers a = false) : (e.deploy (m.copy friendHead fun _ => 0)).2.mem a = m a := by
  have hb : ¬ e.bss.any (fun i => i.range.covers a) = true := by
    rw [List.any_eq_true]
    rintro ⟨i, hi, hc⟩
    rw [h _ (List.mem_append_right _ (List.mem_map_of_mem hi))] at hc
    cases hc
  have hf : (e.loads.reverse.find? fun i => i.range.covers a) = none := by
    rw [List.find?_eq_none]
    intro i hi hc
    rw [h _ (List.mem_append_left _ (List.mem_map_of_mem (List.mem_reverse.mp hi)))] at hc
    cases hc
  rw [e.deploy_mem _ (deploy_fst m _ ▸ hok), if_neg hb, hf, Option.map_none, Option.getD_none]
  exact Bytes.copy_of_not_covers m _ hhead

end

/-- A byte of the first 4MB, of the file bytes of a segment or of a section that is to be cleared. -/
def Renewed (e : ElfLoader) (a : BitVec 64) : Prop :=
  InFriend a ∧ (friendHead.covers a = true ∨ (∃ i, e.IsLoad i ∧ (e.segment i).range.covers a = true) ∨
    ∃ i, e.IsBss i ∧ (e.bssSection i).range.covers a = true)

/-- Two memories after `setup`: they have the same fresh bytes, and of the first of them these are the import pointers, the
page table entries, and otherwise what `Deploy` makes of zeros; its trampoline has the code and the entry point. -/
structure FreshStart (L : Layout) (bin : Friend16) (e : ElfLoader) (m m' : Bytes) : Prop where
  agree : ∀ a, Renewed e a → m a = m' a
  imports : ∀ c ∈ L.exports, m.read64 c.sharedVarPtr = c.hakaseVarPtr
  tables : ∀ c ∈ L.cells, m.read64 (slot c.page c.index) = c.value
  rest : ∀ a, Renewed e a → (∀ w ∈ L.writes, (Range.mk w.1 8).covers a = false) → m a = (e.deploy fun _ => 0).2.mem a
  code : ∀ k : BitVec 64, k < bin.size → ¬ (8 ≤ k ∧ k < 16) → m (TRAMPOLINE_ADDR + k) = bin.start k
  entry : m.read64 (TRAMPOLINE_ADDR + 8) = e.getEntry

/-- A byte that `setup` sets: in the first 4MB, in a range that `Deploy` comes to, in an entry or an import pointer. -/
def Settled (L : Layout) (e : ElfLoader) (a : BitVec 64) : Prop :=
  (friendHead.covers a = true ∨ ∃ r ∈ e.ranges, r.covers a = true) ∨ ∃ w ∈ L.writes, (Range.mk w.1 8).covers a = true

section
variable {L : Layout} {bin : Friend16} {e : ElfLoader} {m m' : Bytes} {a : BitVec 64}

theorem started_agree (hsize : bin.size ≤ PAGE_SIZE) (hok : (e.deploy m).1 = true) (ha : InFriend a)
    (h : Settled L e a) : started L bin e m a = started L bin e m' a := by
  by_cases hw : ∃ w ∈ L.writes, (Range.mk w.1 8).covers a = true
  · obtain ⟨w, hw, hc⟩ := hw
    exact started_of_written hw hc m'
  · have hno : ∀ w ∈ L.writes, (Range.mk w.1 8).covers a = false :=
      fun w hm => Bool.not_eq_true _ ▸ fun hc => hw ⟨w, hm, hc⟩
    have hset := h.resolve_right hw
    rw [started_of_not_written hsize ha hno, started_of_not_written hsize ha hno, deploy_of_set hok hset,
      deploy_of_set (deploy_fst m m' ▸ hok) hset]

theorem cell_apart {c : Cell} (hc : c ∈ L.cells) {x : ExportSymbolContainer} (hx : x ∈ L.exports) :
    x.sharedVarPtr.toNat + 8 ≤ (slot c.page c.index).toNat ∨ (slot c.page c.index).toNat + 8 ≤ x.sharedVarPtr.toNat := by
  obtain ⟨hpage, hindex⟩ := Tables.cell_bounds hc
  obtain ⟨hal, -, hlt⟩ := Tables.pages_bounds hpage
  have hslot := Tables.toNat_slot hpage hindex
  have hin := L.import_inFriend x hx
  rcases List.mem_cons.mp hpage with hroot | hpage
  · have hroot' : c.page.toNat = 0x71000 := by rw [hroot]; rfl
    omega
  · have hapart := L.import_table_apart x hx c.page hpage
    omega

theorem started_imports {x : ExportSymbolContainer} (hx : x ∈ L.exports) :
    (started L bin e m).read64 x.sharedVarPtr = x.hakaseVarPtr :=
  read64_patch _ (fun c hc => (L.import_inFriend c hc).2) L.imports_apart hx

theorem slot_bounds {c : Cell} (hc : c ∈ L.cells) :
    0x71000 ≤ (slot c.page c.index).toNat ∧ (slot c.page c.index).toNat + 8 ≤ 2 ^ 64 := by
  obtain ⟨hpage, hindex⟩ := Tables.cell_bounds hc
  obtain ⟨-, hge, hlt⟩ := Tables.pages_bounds hpage
  rw [Tables.toNat_slot hpage hindex]
  omega

theorem started_tables {c : Cell} (hc : c ∈ L.cells) : (started L bin e m).read64 (slot c.page c.index) = c.value := by
  unfold started
  rw [read64_patch_of_apart _ (slot_bounds hc).2 (fun x hx => (L.import_inFriend x hx).2) fun x hx => cell_apart hc hx]
  exact Tables.read_install _ hc

theorem started_entry : (started L bin e m).read64 (TRAMPOLINE_ADDR + 8) = e.getEntry := by
  have haddr : (TRAMPOLINE_ADDR + 8).toNat = 0x70008 := rfl
  unfold started
  rw [read64_patch_of_apart _ (by decide) (fun x hx => (L.import_inFriend x hx).2)]
  · unfold Loader16.installed
    rw [Tables.read_install_other _ (by decide) fun c hc => ?_, Bytes.read64_write64_self]
    intro heq
    have hge := (slot_bounds hc).1
    rw [heq, haddr] at hge
    exact absurd hge (by decide)
  · intro x hx
    have hin := L.import_inFriend x hx
    rw [haddr]
    omega

theorem writes_ge {w : BitVec 64 × BitVec 64} (hw : w ∈ L.writes) :
    0x71000 ≤ w.1.toNat ∧ w.1.toNat + 8 ≤ 2 ^ 64 := by
  rcases List.mem_append.mp hw with hw | hw
  · obtain ⟨c, hc, rfl⟩ := List.mem_map.mp hw
    exact slot_bounds hc
  · obtain ⟨x, hx, rfl⟩ := List.mem_map.mp hw
    have hin := L.import_inFriend x hx
    dsimp only
    omega

theorem started_code (hsize : bin.size ≤ PAGE_SIZE) {k : BitVec 64} (hk : k < bin.size) (hne : ¬ (8 ≤ k ∧ k < 16)) :
    started L bin e m (TRAMPOLINE_ADDR + k) = bin.start k := by
  have hsize' : bin.size.toNat ≤ 0x1000 := hsize
  have hk' : k.toNat < bin.size.toNat := hk
  have haddr : (TRAMPOLINE_ADDR + k).toNat = 0x70000 + k.toNat := by
    rw [BitVec.toNat_add, toNat_trampoline_addr]
    omega
  have hnone : (L.writes.reverse.find? fun w => (Range.mk w.1 8).covers (TRAMPOLINE_ADDR + k)) = none := by
    rw [List.find?_eq_none]
    intro w hw hc
    obtain ⟨hge, hle⟩ := writes_ge (List.mem_reverse.mp hw)
    rw [Range.covers_iff hle] at hc
    dsimp only at hc
    omega
  have hsub : TRAMPOLINE_ADDR + k - TRAMPOLINE_ADDR = k := by rw [BitVec.add_comm, BitVec.add_sub_cancel]
  rw [started_apply, hnone, Option.map_none, Option.getD_none]
  unfold trampoline Bytes.write64
  rw [Bytes.copy_of_not_covers, Bytes.copy_of_covers, hsub]
  · rw [Range.covers_iff_sub, hsub]
    exact hk'
  · rw [BitVec.le_def, BitVec.lt_def, Lib.toNat_eight, show (16 : BitVec 64).toNat = 16 from rfl] at hne
    rw [← Bool.not_eq_true, Range.covers_iff (by decide), haddr, show (TRAMPOLINE_ADDR + 8).toNat = 0x70008 from rfl,
      Lib.toNat_eight]
    omega

/-- If all renewed bytes are settled, `setup` gives a fresh start. -/
theorem freshStart_started (hsize : bin.size ≤ PAGE_SIZE) (hok : (e.deploy m).1 = true)
    (h : ∀ a, Renewed e a → Settled L e a) : FreshStart L bin e (started L bin e m) (started L bin e m') where
  agree a ha := started_agree hsize hok ha.1 (h a ha)
  imports _ hx := started_imports hx
  tables _ hc := started_tables hc
  rest a ha hno := by
    rw [started_of_not_written hsize ha.1 hno]
    apply deploy_of_set hok
    refine (h a ha).resolve_right ?_
    rintro ⟨w, hw, hc⟩
    rw [hno w hw] at hc
    cases hc
  code _ hk hne := started_code hsize hk hne
  entry := started_entry

theorem started_of_not_settled (hsize : bin.size ≤ PAGE_SIZE) (hok : (e.deploy m).1 = true) (ha : InFriend a)
    (h : ¬ Settled L e a) : started L bin e m a = m a := by
  have hno : ∀ w ∈ L.writes, (Range.mk w.1 8).covers a = false :=
    fun w hw => Bool.not_eq_true _ ▸ fun hc => h (.inr ⟨w, hw, hc⟩)
  rw [started_of_not_written hsize ha hno]
  apply deploy_of_not_set hok
  · exact Bool.not_eq_true _ ▸ fun hc => h (.inl (.inl hc))
  · exact fun r hr => Bool.not_eq_true _ ▸ fun hc => h (.inl (.inr ⟨r, hr, hc⟩))

/-- Answers with which no call fails for a process that has nothing but friend memory. -/
theorem exists_answers : ∃ A : Answers, ¬ checkVersion A.version < 0 ∧ ¬ checkBootparam A.cmdline < 0 ∧
    (A.memOpened = true ∧ A.memRemapped = true) ∧ (A.bootOpened = true ∧ A.bootRemapped = true) ∧
    ∀ p : Process, (∀ a, ¬ InFriend a → p.map a = none) → ∃ g, A.grant p = some g := by
  classical
  have hversion : checkVersion (some kmodVersionString) = 0 := checkFile_self (by decide) (by decide)
  have hparam : checkBootparam (some "memmap=8K$0x70000 memmap=1G$4G".toList) = 0 := checkFile_self (by decide) (by decide)
  refine ⟨⟨some kmodVersionString, some "memmap=8K$0x70000 memmap=1G$4G".toList, true, true, true, true, fun p =>
    if h : Nonempty (Grant p TRAMPOLINE_SIZE) then some h.some else none⟩, ?_, ?_, ⟨rfl, rfl⟩, ⟨rfl, rfl⟩, ?_⟩
  · rw [hversion]
    decide
  · rw [hparam]
    decide
  · intro p hp
    exact ⟨_, dif_pos ⟨farGrant hp⟩⟩

/-- From every memory there is a run of `setup` that succeeds, if the binary fits and `Deploy` accepts the image. -/
theorem exists_setup (L : Layout) (hwrap : ∀ r ∈ e.ranges, ¬ r.Overflows) (hsize : bin.size ≤ PAGE_SIZE)
    (hok : (e.deploy m).1 = true) :
    ∃ A q, setup L bin e A ⟨m, fun _ => none⟩ = some (0, q) := by
  obtain ⟨A, hv, hb, hmem, hboot, hgrant⟩ := exists_answers
  let p : Process := ⟨m, fun _ => none⟩
  have hfree : ∀ a, ¬ InFriend a → (mapped p).map a = none := by
    intro a ha
    obtain ⟨p', hp', hrest⟩ := p.exists_mmapFriendMem
    rw [Process.mmapFriendMem_eq] at hp'
    rw [show p' = mapped p from (Prod.mk.inj (Option.some.inj hp')).2.symm] at hrest
    exact hrest a ha
  let d : Process := ⟨(e.deploy (mapped p).phys).2.mem, (mapped p).map⟩
  obtain ⟨g, hg⟩ := hgrant d hfree
  have hinit := Loader16.init_fits (p := d) L.toTables bin e.getEntry (seesFriend_mapped p) hsize g
  refine ⟨A, ⟨started L bin e m, (mapped p).map⟩, ?_⟩
  rw [setup_of_mapped hwrap hv hb hmem]
  dsimp only
  rw [if_neg, Answers.loader16Init, hg, hboot.1, hboot.2]
  · dsimp only
    rw [hinit, Option.bind_some]
    dsimp only
    rw [if_neg (by decide), exportInit_eq (seesFriend_mapped p) L.import_inFriend, Option.map_some]
    rfl
  · rw [deploy_fst _ m, hok]
    decide

end

/-- **When `setup` gives a fresh start.** Whatever two runs find in memory, if `setup` succeeds in both they have the same
fresh bytes, those of the image with the import pointers and page table entries, iff `setup` cannot succeed or it settles
every renewed byte. -/
theorem fresh_start_iff (L : Layout) (bin : Friend16) (e : ElfLoader) (hwrap : ∀ r ∈ e.ranges, ¬ r.Overflows) :
    (∀ A A' p p' q q', setup L bin e A p = some (0, q) → setup L bin e A' p' = some (0, q') →
      FreshStart L bin e q.phys q'.phys) ↔
    (bin.size ≤ PAGE_SIZE → e.headerOk = true → e.ranges.all accepts = true → ∀ a, Renewed e a → Settled L e a) := by
  have hverdict (m : Bytes) : (e.deploy m).1 = true ↔ e.headerOk = true ∧ e.ranges.all accepts = true := by
    rw [e.deploy_accepts, Bool.and_eq_true]
  constructor
  · intro h hsize hhead hranges a ha
    by_contra hno
    -- memories of zeros and of ones
    have hok (m : Bytes) : (e.deploy m).1 = true := (hverdict m).mpr ⟨hhead, hranges⟩
    obtain ⟨A, q, hq⟩ := exists_setup L hwrap hsize (hok fun _ => 0)
    obtain ⟨A', q', hq'⟩ := exists_setup L hwrap hsize (hok fun _ => 1)
    have hagree := (h A A' _ _ q q' hq hq').agree a ha
    rw [(setup_success hwrap hq).2.2, (setup_success hwrap hq').2.2, started_of_not_settled hsize (hok _) ha.1 hno,
      started_of_not_settled hsize (hok _) ha.1 hno] at hagree
    change (0 : BitVec 8) = 1 at hagree
    exact absurd hagree (by decide)
  · intro h A A' p p' q q' hq hq'
    obtain ⟨hsize, hok, hphys⟩ := setup_success hwrap hq
    obtain ⟨-, -, hphys'⟩ := setup_success hwrap hq'
    obtain ⟨hhead, hranges⟩ := (hverdict _).mp hok
    rw [hphys, hphys']
    exact freshStart_started hsize hok (h hsize hhead hranges)

/-- The ranges of exact tables are the ones that `Deploy` comes to. -/
theorem settled_of_exact (L : Layout) {e : ElfLoader} (hp : e.PhdrsExact) (hs : e.ShdrsExact) {a : BitVec 64}
    (h : Renewed e a) : Settled L e a := by
  rcases h.2 with hhead | ⟨i, hi, hc⟩ | ⟨i, hi, hc⟩
  · exact .inl (.inl hhead)
  · have hmem : e.segment i ∈ e.loads := hp.mem_loads_iff.mpr ⟨i, hi, rfl⟩
    exact .inl (.inr ⟨_, List.mem_append_left _ (List.mem_map_of_mem hmem), hc⟩)
  · have hmem : e.bssSection i ∈ e.bss := hs.mem_bss_iff.mpr ⟨i, hi, rfl⟩
    exact .inl (.inr ⟨_, List.mem_append_right _ (List.mem_map_of_mem hmem), hc⟩)

def sampleLayout : Layout where
  toTables := sampleTables
  exports := [⟨0x100004000, 0x601040⟩, ⟨0x100004008, 0x601048⟩]
  import_inFriend := by decide
  imports_apart := by decide
  import_table_apart := by simp [sampleTables]

/-- The `n` bytes at `a` are in the memory range of a segment. -/
def ElfLoader.HasSegment (e : ElfLoader) (a : BitVec 64) (n : Nat) : Prop :=
  ∃ i, e.IsLoad i ∧ (e.memRange i).base.toNat ≤ a.toNat ∧
    a.toNat + n ≤ (e.memRange i).base.toNat + (e.memRange i).size.toNat

/-- The linker has placed the tables and the import pointers in the image. -/
structure Layout.Placed (L : Layout) (e : ElfLoader) : Prop where
  tables : ∀ t ∈ [L.pdpt, L.pd1, L.pd2], e.HasSegment t 4096
  imports : ∀ c ∈ L.exports, e.HasSegment c.sharedVarPtr 8

theorem Layout.placed_of {L : Layout} {e : ElfLoader} {i : Nat} {r : Range} (hi : e.IsLoad i) (hr : e.memRange i = r)
    (ht : ∀ t ∈ [L.pdpt, L.pd1, L.pd2], r.base.toNat ≤ t.toNat ∧ t.toNat + 4096 ≤ r.base.toNat + r.size.toNat)
    (hc : ∀ c ∈ L.exports, r.base.toNat ≤ c.sharedVarPtr.toNat ∧
      c.sharedVarPtr.toNat + 8 ≤ r.base.toNat + r.size.toNat) : L.Placed e := by
  subst hr
  exact ⟨fun t hmem => ⟨i, hi, ht t hmem⟩, fun c hmem => ⟨i, hi, hc c hmem⟩⟩

/-- An image that has the tables and import pointers of `sampleLayout` in its `.bss`, which goes beyond the first 4MB. -/
def linkedImage : ElfLoader :=
  ofBytes (ehdrBytes 1 1 ++ loadBytes 64 0x100001000 16 0x500000 ++ nobitsBytes 0x100001010 0x4ffff0)

/-- An image with exact tables is started afresh, over any memory. -/
theorem fresh_start_bss :
    sampleLayout.Placed linkedImage ∧
    (∀ A A' p p' q q', setup sampleLayout sampleBin linkedImage A p = some (0, q) →
      setup sampleLayout sampleBin linkedImage A' p' = some (0, q') →
      FreshStart sampleLayout sampleBin linkedImage q.phys q'.phys) ∧
    ∀ m : Bytes, ∃ A q, setup sampleLayout sampleBin linkedImage A ⟨m, fun _ => none⟩ = some (0, q) := by
  have hranges : linkedImage.ranges = [⟨0x100001000, 16⟩, ⟨0x100001010, 0x4ffff0⟩] := by decide +kernel
  have hhead : linkedImage.headerOk = true := by decide +kernel
  have hload : linkedImage.IsLoad 0 := ⟨by decide +kernel, by decide +kernel⟩
  have hmem : linkedImage.memRange 0 = ⟨0x100001000, 0x500000⟩ := by decide +kernel
  have hwrap : ∀ r ∈ linkedImage.ranges, ¬ r.Overflows := by
    rw [hranges]
    decide
  refine ⟨Layout.placed_of hload hmem (by simp [sampleLayout, sampleTables]) (by simp [sampleLayout]), ?_, ?_⟩
  · apply (fresh_start_iff sampleLayout sampleBin linkedImage hwrap).mpr
    intro _ _ _ a ha
    exact settled_of_exact sampleLayout (.inr (by decide +kernel)) (.inr (by decide +kernel)) ha
  · intro m
    apply exists_setup sampleLayout hwrap (by decide)
    rw [ElfLoader.deploy_accepts, hhead, hranges]
    decide

/-- An image linked above the first 4MB. Its segment, with the tables and import pointers of `highLayout` in it, is the
second entry of a table at offset 0. -/
def highImage : ElfLoader :=
  ofBytes (((ehdrBytes 2 0).set 32 0).set 54 64 ++ loadBytes 0 0x110000000 16 0x5000 ++ List.replicate 56 0)

def highLayout : Layout where
  pdpt := 0x110001000
  pd1 := 0x110002000
  pd2 := 0x110003000
  inFriend := by simp [inFriend_iff]
  aligned := by simp
  nodup := by simp
  exports := [⟨0x110004000, 0x601040⟩, ⟨0x110004008, 0x601048⟩]
  import_inFriend := by decide
  imports_apart := by decide
  import_table_apart := by simp

theorem highImage_isLoad_iff (i : Nat) : highImage.IsLoad i ↔ i = 1 := by
  have hnum : highImage.ePhnum = 2 := by decide +kernel
  constructor
  · rintro ⟨hlt, hload⟩
    rw [hnum] at hlt
    have hi : i = 0 ∨ i = 1 := by
      change i < 2 at hlt
      omega
    refine hi.resolve_left ?_
    rintro rfl
    exact absurd hload (by decide +kernel)
  · rintro rfl
    exact ⟨by decide +kernel, by decide +kernel⟩

/-- The segment behind a table entry at offset 0 is not loaded: its bytes are those of the last run. -/
theorem stale_segment :
    let e := highImage
    (e.Contained ∧ (∀ r ∈ e.ranges, ¬ r.Overflows) ∧ ∀ i, e.IsLoad i → ¬ (e.memRange i).Overflows) ∧
    (highLayout.Placed e ∧ e.segment 1 = ⟨0x110000000, 0, 16⟩ ∧ Renewed e 0x110000000) ∧
    ∃ A A' q q', setup highLayout sampleBin e A ⟨fun _ => 0, fun _ => none⟩ = some (0, q) ∧
      setup highLayout sampleBin e A' ⟨fun _ => 1, fun _ => none⟩ = some (0, q') ∧
      q.phys 0x110000000 = 0 ∧ q'.phys 0x110000000 = 1 ∧ ¬ FreshStart highLayout sampleBin e q.phys q'.phys := by
  intro e
  have hranges : e.ranges = [] := by decide +kernel
  have hhead : e.headerOk = true := by decide +kernel
  have hload : e.IsLoad 1 := (highImage_isLoad_iff 1).mpr rfl
  have hseg : e.segment 1 = ⟨0x110000000, 0, 16⟩ := by decide +kernel
  have hmem : e.memRange 1 = ⟨0x110000000, 0x5000⟩ := by decide +kernel
  have hwrap : ∀ r ∈ e.ranges, ¬ r.Overflows := by simp [hranges]
  have hsize : sampleBin.size ≤ PAGE_SIZE := by decide
  have hin : InFriend 0x110000000 := by decide
  have hrenewed : Renewed e 0x110000000 := ⟨hin, .inr (.inl ⟨1, hload, by rw [hseg]; decide⟩)⟩
  have hcontained : e.Contained := by
    refine ⟨by decide +kernel, by decide +kernel, fun i hi => ?_⟩
    rw [(highImage_isLoad_iff i).mp hi]
    decide +kernel
  have hplaced : highLayout.Placed e :=
    Layout.placed_of hload hmem (by simp [highLayout]) (by simp [highLayout])
  have hfits : ∀ i, e.IsLoad i → ¬ (e.memRange i).Overflows := by
    intro i hi
    rw [(highImage_isLoad_iff i).mp hi, hmem]
    decide
  have hok (m : Bytes) : (e.deploy m).1 = true := by
    rw [e.deploy_accepts, hhead, hranges]
    rfl
  have hno : ¬ Settled highLayout e 0x110000000 := by
    rintro ((hc | ⟨r, hr, -⟩) | ⟨w, hw, hc⟩)
    · exact absurd hc (by decide)
    · rw [hranges] at hr
      cases hr
    · have hall : highLayout.writes.all (fun w => !(Range.mk w.1 8).covers 0x110000000) = true := by decide +kernel
      have hw := List.all_eq_true.mp hall w hw
      rw [hc] at hw
      cases hw
  obtain ⟨A, q, hq⟩ := exists_setup highLayout hwrap hsize (hok fun _ => 0)
  obtain ⟨A', q', hq'⟩ := exists_setup highLayout hwrap hsize (hok fun _ => 1)
  have hstale : q.phys 0x110000000 = 0 := by
    rw [(setup_success hwrap hq).2.2, started_of_not_settled hsize (hok _) hin hno]
  have hstale' : q'.phys 0x110000000 = 1 := by
    rw [(setup_success hwrap hq').2.2, started_of_not_settled hsize (hok _) hin hno]
  refine ⟨⟨hcontained, hwrap, hfits⟩, ⟨hplaced, hseg, hrenewed⟩, A, A', q, q', hq, hq', hstale, hstale', fun h => ?_⟩
  have hagree := h.agree _ hrenewed
  rw [hstale, hstale'] at hagree
  exact absurd hagree (by decide)

end Toshokan.Hakase
