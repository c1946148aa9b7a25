import Mathlib.Data.List.Infix
import Toshokan.Hakase.Deploy
import Toshokan.Hakase.Loader16

/-!
# `hakase/hakase.cc`: `setup`

Hakase checks the kernel module and the boot parameters, maps and clears friend memory, deploys the friend binary into it,
installs the trampoline, and gives the friend its pointers to exported variables.

* `Layout` : where the linker puts the page tables and the import pointers of the friend;
* `checkVersion`, `checkBootparam`, `deployIn`, `exportInit`, `setup` : as in the source, on a process;
* `deployIn_eq` : through the mapping of friend memory `Deploy` does to physical memory what `deploy` does;
* `started` : physical memory after `setup`; `setup_success` : what a `setup` that succeeds leaves.
-/

namespace Toshokan.Hakase
open Lib (Bytes Range)

/-! ## The checks -/

def kmodVersionString : List Char := "v0.05".toList

/-- `strstr(s, text)` is not `NULL`. -/
def strstr (s text : List Char) : Bool := s.tails.any text.isPrefixOf

/-- Both checks: the file can be opened, and the C string of its first 255 bytes has `text` in it. -/
def checkFile (text : List Char) (file : Option (List Char)) : Int :=
  match file with
  | none => -1
  | some bytes => if strstr ((bytes.take 255).takeWhile (· != '\x00')) text = true then 0 else -1

def checkVersion : Option (List Char) → Int := checkFile kmodVersionString

def checkBootparam : Option (List Char) → Int := checkFile "memmap=8K$0x70000 memmap=1G$4G".toList

theorem checkFile_self {text : List Char} (hlen : text.length ≤ 255) (hnul : text.all (· != '\x00') = true) :
    checkFile text (some text) = 0 := by
  have hstr : strstr text text = true := by
    unfold strstr
    rw [List.any_eq_true]
    exact ⟨text, (List.mem_tails _ _).mpr (List.suffix_refl text), List.isPrefixOf_iff_prefix.mpr (List.prefix_refl text)⟩
  unfold checkFile
  dsimp only
  rw [List.take_of_length_le hlen, List.takeWhile_eq_self_iff.mpr (List.all_eq_true.mp hnul), if_pos hstr]

/-! ## `Deploy` on a process -/

namespace ElfLoader

variable (e : ElfLoader)

/-- What an access of `Deploy` does to a memory. -/
def apply (m : Bytes) : Access → Bytes
  | .memcpy dst src => m.copy dst fun k => e.addr (src + k)
  | .memset dst => m.copy dst fun _ => 0
  | _ => m

/-- What it does to the memory of a process. The image is outside of friend memory and is not written. -/
def perform (p : Process) : Access → Option Process
  | .memcpy dst src => p.storeBytes dst.base (fun k => e.addr (src + k)) dst.size.toNat
  | .memset dst => p.storeBytes dst.base (fun _ => 0) dst.size.toNat
  | _ => some p

/-- `Deploy` in a process; `none` is a fault. -/
def deployIn (p : Process) : Option (Bool × Process) :=
  ((e.deploy p.phys).2.trace.foldlM e.perform p).map fun p' => ((e.deploy p.phys).1, p')

end ElfLoader

/-! ## `setup` -/

structure ExportSymbolContainer where
  sharedVarPtr : BitVec 64
  hakaseVarPtr : BitVec 64
  deriving DecidableEq, Repr

/-- The page tables, and the export table, whose import pointers lie in friend memory apart from each other and from the
page tables. -/
structure Layout extends Tables where
  exports : List ExportSymbolContainer
  import_inFriend : ∀ c ∈ exports, 0x100000000 ≤ c.sharedVarPtr.toNat ∧ c.sharedVarPtr.toNat + 8 ≤ 0x140000000
  imports_apart : exports.Pairwise fun c d =>
    c.sharedVarPtr.toNat + 8 ≤ d.sharedVarPtr.toNat ∨ d.sharedVarPtr.toNat + 8 ≤ c.sharedVarPtr.toNat
  import_table_apart : ∀ c ∈ exports, ∀ t ∈ [pdpt, pd1, pd2],
    c.sharedVarPtr.toNat + 8 ≤ t.toNat ∨ t.toNat + 4096 ≤ c.sharedVarPtr.toNat

def exportInit (exports : List ExportSymbolContainer) (p : Process) : Option Process :=
  exports.foldlM (fun p c => p.store64 c.sharedVarPtr c.hakaseVarPtr) p

/-- What the system calls of `setup` answer: the contents of the two files, whether the devices can be opened and mapped,
and where the trampoline is mapped. -/
structure Answers where
  version : Option (List Char)
  cmdline : Option (List Char)
  memOpened : Bool
  memRemapped : Bool
  bootOpened : Bool
  bootRemapped : Bool
  grant : ∀ p : Process, Option (Grant p TRAMPOLINE_SIZE)

/-- `Loader16::Init`, which also fails when there is no room for the trampoline. -/
def Answers.loader16Init (A : Answers) (T : Tables) (bin : Friend16) (p : Process) (entry : BitVec 64) :
    Option (Int × Process) :=
  match A.grant p with
  | none => some (-1, p)
  | some g => Loader16.init T bin p entry A.bootOpened A.bootRemapped g

def setup (L : Layout) (bin : Friend16) (e : ElfLoader) (A : Answers) (p : Process) : Option (Int × Process) :=
  if checkVersion A.version < 0 then some (-1, p)
  else if checkBootparam A.cmdline < 0 then some (-1, p)
  else do
    let (r, p) ← p.mmapFriendMem A.memOpened A.memRemapped
    if r < 0 then some (-1, p)
    else
      let (deployed, p) ← e.deployIn p
      if deployed = false then some (-1, p)
      else
        let (r, p) ← A.loader16Init L.toTables bin p e.getEntry
        if r < 0 then some (-1, p)
        else (exportInit L.exports p).map fun p => (0, p)

/-! ## `Deploy` through the mapping of friend memory -/

/-- The memory is what the accesses so far have made of `m`. -/
def Loading.Replays (e : ElfLoader) (m : Bytes) (s : Loading) : Prop := s.mem = s.trace.foldl e.apply m

namespace ElfLoader

variable {e : ElfLoader}

theorem replays_deployEntry {α β : Type} {header : α → Access} {info : α → Option β} {range : β → Range}
    {fill : β → Loading → Loading} {m : Bytes} (hh : ∀ x (m : Bytes), e.apply m (header x) = m)
    (hf : ∀ i s, s.Replays e m → (fill i s).Replays e m) (x : α) (s : Loading) (h : s.Replays e m) :
    (deployEntry header info range fill x s).2.Replays e m := by
  have htouch : (s.touch (header x)).Replays e m := by
    unfold Loading.Replays Loading.touch
    rw [List.foldl_append, List.foldl_cons, List.foldl_nil, hh, ← h]
  unfold deployEntry
  dsimp only
  split
  · exact htouch
  · split
    · exact hf _ _ htouch
    · exact htouch

theorem replays_loadSegments {m : Bytes} {s : Loading} (h : s.Replays e m) : (e.loadSegments s).2.Replays e m := by
  unfold loadSegments
  rw [Lib.scan_eq_sweep]
  refine Lib.sweep_induct (P := Loading.Replays e m) (fun x s => ?_) _ h
  refine replays_deployEntry (fun _ _ => rfl) (fun i s hs => ?_) x s
  unfold Loading.Replays memcpy at *
  rw [List.foldl_append, ← hs]
  rfl

theorem replays_clearSections {m : Bytes} {s : Loading} (h : s.Replays e m) : (e.clearSections s).2.Replays e m := by
  unfold clearSections
  rw [Lib.scan_eq_sweep]
  refine Lib.sweep_induct (P := Loading.Replays e m) (fun x s => ?_) _ h
  refine replays_deployEntry (fun _ _ => rfl) (fun i s hs => ?_) x s
  unfold Loading.Replays memset at *
  rw [List.foldl_append, ← hs]
  rfl

/-- The memory that `Deploy` leaves is the effect of its accesses, in order. -/
theorem replays_deploy (e : ElfLoader) (m : Bytes) : (e.deploy m).2.Replays e m := by
  have hstart : Loading.Replays e m ⟨m, [.ehdr]⟩ := rfl
  rw [deploy_eq]
  split
  · split
    · exact replays_clearSections (replays_loadSegments hstart)
    · exact replays_loadSegments hstart
  · exact hstart

theorem foldlM_perform {map : AddressMap} (h : map.SeesFriend) (l : List Access) (m : Bytes)
    (hin : ∀ r ∈ l.filterMap Access.written, ∀ a, r.covers a = true → InFriend a) :
    l.foldlM e.perform ⟨m, map⟩ = some ⟨l.foldl e.apply m, map⟩ := by
  induction l generalizing m with
  | nil => rfl
  | cons x l ih =>
      have hx : e.perform ⟨m, map⟩ x = some ⟨e.apply m x, map⟩ := by
        have hlin {dst : Range} (hc : ∀ a, dst.covers a = true → InFriend a) :
            map.Linear dst.base dst.base dst.size.toNat := fun k hk => h _ (hc _ (Range.covers_add hk))
        have hstore {dst : Range} (src : BitVec 64 → BitVec 8) (hc : ∀ a, dst.covers a = true → InFriend a) :
            (Process.mk m map).storeBytes dst.base src dst.size.toNat = some ⟨m.copy dst src, map⟩ := by
          rw [Process.storeBytes_eq m src (hlin hc) dst.size.isLt, BitVec.ofNat_toNat, BitVec.setWidth_eq]
        cases x with
        | memcpy dst src => exact hstore _ (hin dst (by simp [Access.written]))
        | memset dst => exact hstore _ (hin dst (by simp [Access.written]))
        | ehdr => rfl
        | phdr p => rfl
        | shdr p => rfl
      rw [List.foldlM_cons, hx, List.foldl_cons]
      refine ih _ fun r hr => hin r ?_
      rw [List.filterMap_cons]
      split
      · exact hr
      · exact List.mem_cons_of_mem _ hr

/-- Where hakase has friend memory at its physical addresses, `Deploy` does not fault and does what `deploy` does. -/
theorem deployIn_eq {map : AddressMap} (h : map.SeesFriend) (m : Bytes) (hwrap : ∀ r ∈ e.ranges, ¬ r.Overflows) :
    e.deployIn ⟨m, map⟩ = some ((e.deploy m).1, ⟨(e.deploy m).2.mem, map⟩) := by
  have hin : ∀ r ∈ (e.deploy m).2.trace.filterMap Access.written, ∀ a, r.covers a = true → InFriend a := by
    intro r hr
    have hr : r ∈ (e.deploy m).2.writes := hr
    rw [e.deploy_writes] at hr
    split at hr
    · exact (accepted_inFriend_iff (List.mem_takeWhile_imp hr)).mpr (hwrap r ((List.takeWhile_prefix _).subset hr))
    · cases hr
  unfold deployIn
  rw [foldlM_perform h _ _ hin, ← e.replays_deploy m]
  rfl

end ElfLoader

/-! ## What `setup` leaves -/

def patch (exports : List ExportSymbolContainer) (m : Bytes) : Bytes :=
  exports.foldl (fun m c => m.write64 c.sharedVarPtr c.hakaseVarPtr) m

theorem exportInit_eq {map : AddressMap} (h : map.SeesFriend) {exports : List ExportSymbolContainer}
    (hin : ∀ c ∈ exports, 0x100000000 ≤ c.sharedVarPtr.toNat ∧ c.sharedVarPtr.toNat + 8 ≤ 0x140000000) (m : Bytes) :
    exportInit exports ⟨m, map⟩ = some ⟨patch exports m, map⟩ := by
  unfold exportInit patch
  induction exports generalizing m with
  | nil => rfl
  | cons c exports ih =>
      obtain ⟨hlo, hhi⟩ := hin c List.mem_cons_self
      have hlin : map.Linear c.sharedVarPtr c.sharedVarPtr 8 := by
        apply h.linear _ hhi
        rw [inFriend_iff]
        omega
      rw [List.foldlM_cons, Process.store64_eq m _ hlin, List.foldl_cons]
      exact ih (fun c hc => hin c (List.mem_cons_of_mem _ hc)) _

def friendHead : Range := ⟨DEPLOY_PHYS_ADDR_START, 0x400000⟩

/-- Physical memory after `setup`, from what it was before. -/
def started (L : Layout) (bin : Friend16) (e : ElfLoader) (m : Bytes) : Bytes :=
  patch L.exports (Loader16.installed L.toTables bin e.getEntry (e.deploy (m.copy friendHead fun _ => 0)).2.mem)

section
variable {L : Layout} {bin : Friend16} {e : ElfLoader} {A : Answers} {p q : Process}

theorem deploy_fst (m m' : Bytes) : (e.deploy m).1 = (e.deploy m').1 := by
  rw [e.deploy_accepts, e.deploy_accepts]

theorem mmapFriendMem_cases (p : Process) (opened remapped : Bool) :
    (∃ p', p.mmapFriendMem opened remapped = some (-1, p')) ∨ opened = true ∧ remapped = true := by
  cases opened with
  | false => exact .inl ⟨p, rfl⟩
  | true =>
      cases remapped with
      | false => exact .inl ⟨_, rfl⟩
      | true => exact .inr ⟨rfl, rfl⟩

theorem loader16Init_cases (A : Answers) (T : Tables) (entry : BitVec 64) (hmap : p.map.SeesFriend) :
    A.loader16Init T bin p entry = some (-1, p) ∨
      bin.size ≤ PAGE_SIZE ∧
        A.loader16Init T bin p entry = some (0, ⟨Loader16.installed T bin entry p.phys, p.map⟩) := by
  unfold Answers.loader16Init
  split
  · exact .inl rfl
  · rename_i g _
    rw [Loader16.init_eq hmap]
    split
    · rename_i hc
      exact .inr ⟨hc.1, rfl⟩
    · exact .inl rfl

def mapped (p : Process) : Process :=
  { (p.unmap ⟨DEPLOY_PHYS_ADDR_START, DEPLOY_PHYS_MEM_SIZE⟩).remap
      ⟨DEPLOY_PHYS_ADDR_START, DEPLOY_PHYS_ADDR_START >>> FriendLoader.PAGE_SHIFT, DEPLOY_PHYS_MEM_SIZE⟩ with
    phys := p.phys.copy friendHead fun _ => 0 }

theorem seesFriend_mapped (p : Process) : (mapped p).map.SeesFriend := Process.seesFriend_remap _

theorem setup_of_mapped (hwrap : ∀ r ∈ e.ranges, ¬ r.Overflows) (hv : ¬ checkVersion A.version < 0)
    (hb : ¬ checkBootparam A.cmdline < 0) (hm : A.memOpened = true ∧ A.memRemapped = true) :
    setup L bin e A p =
      let d : Process := ⟨(e.deploy (mapped p).phys).2.mem, (mapped p).map⟩
      if (e.deploy (mapped p).phys).1 = false then some (-1, d)
      else (A.loader16Init L.toTables bin d e.getEntry).bind fun (r, p) =>
        if r < 0 then some (-1, p) else (exportInit L.exports p).map fun p => (0, p) := by
  unfold setup
  rw [if_neg hv, if_neg hb, hm.1, hm.2, Process.mmapFriendMem_eq]
  have hdeploy := ElfLoader.deployIn_eq (seesFriend_mapped p) (mapped p).phys hwrap
  change (e.deployIn (mapped p)).bind _ = _
  rw [show mapped p = ⟨(mapped p).phys, (mapped p).map⟩ from rfl, hdeploy]
  rfl

/-- What a successful `setup` has gone through, and the memory it leaves. -/
theorem setup_success (hwrap : ∀ r ∈ e.ranges, ¬ r.Overflows) (h : setup L bin e A p = some (0, q)) :
    bin.size ≤ PAGE_SIZE ∧ (e.deploy p.phys).1 = true ∧ q.phys = started L bin e p.phys := by
  have hfail : ∀ q' : Process, some ((-1 : Int), q') ≠ some (0, q) := by
    intro q' h'
    exact absurd (Prod.mk.inj (Option.some.inj h')).1 (by decide)
  by_cases hv : checkVersion A.version < 0
  · rw [setup, if_pos hv] at h
    exact absurd h (hfail _)
  by_cases hb : checkBootparam A.cmdline < 0
  · rw [setup, if_neg hv, if_pos hb] at h
    exact absurd h (hfail _)
  rcases mmapFriendMem_cases p A.memOpened A.memRemapped with ⟨p', hp'⟩ | hm
  · rw [setup, if_neg hv, if_neg hb, hp'] at h
    exact absurd h (hfail _)
  rw [setup_of_mapped hwrap hv hb hm] at h
  dsimp only at h
  split at h
  · exact absurd h (hfail _)
  · rename_i hok
    let d : Process := ⟨(e.deploy (mapped p).phys).2.mem, (mapped p).map⟩
    have hsees : d.map.SeesFriend := seesFriend_mapped p
    rcases loader16Init_cases A L.toTables e.getEntry hsees with hinit | ⟨hsize, hinit⟩
    · rw [hinit] at h
      exact absurd h (hfail _)
    · rw [hinit, Option.bind_some] at h
      dsimp only at h
      rw [if_neg (by decide), exportInit_eq hsees L.import_inFriend, Option.map_some] at h
      have hq := (Prod.mk.inj (Option.some.inj h)).2
      refine ⟨hsize, ?_, by rw [← hq]; rfl⟩
      rw [deploy_fst p.phys (mapped p).phys]
      exact Bool.not_eq_false _ ▸ hok

end

end Toshokan.Hakase
