import Toshokan.Tutorial.Mapping
import Toshokan.Hakase.Cores

/-!
# `tutorial/paging/copy_on_write`

A friend maps 2MB, makes them read-only and lets two addresses share a page; its `fault_handler` is to copy a page when it
is written to. The handler runs when a store faults.

* `myMemcpy`, `Pages.copyOnWrite` : what `friend_main` does with its memory;
* `Window` : the frames of the tutorial, `small_frameOf` : the entries for them;
* `Shared` : the invariant, with the number of entries made so far; one lemma for each kind of access;
* `copy_on_write_faults_iff` : whether a store faults.
-/

namespace Toshokan.Tutorial
open Lib Lib.Mmu
open Lib (Bytes)
open Hakase (Tables kPageTableEntryFlags)
open Hakase.Tables (slot)

/-- `my_memcpy`: it goes on by eight words at a time. -/
def myMemcpy (dst src : BitVec 64) (n : Nat) : List Access :=
  (List.range' 0 ((n / 8 + 7) / 8) 8).flatMap fun i =>
    [.load (src + 8 * BitVec.ofNat 64 i), .storeReg (dst + 8 * BitVec.ofNat 64 i)]

def frameOf (i : Nat) : BitVec 64 := 0x50000000 + BitVec.ofNat 64 i * 0x1000

/-- `pt.entry[i] = … | flags`. -/
def setEntry (P : Pages) (flags : BitVec 64) (i : Nat) : Access :=
  .store (P.pt + 8 * BitVec.ofNat 64 i) (frameOf i ||| flags)

/-- A store into each page of the second MB. -/
def clearPages : List Access :=
  (List.range' 0 256).flatMap fun i => [.store (0x80100000 + BitVec.ofNat 64 i * 0x1000) 0]

/-- `friend_main` up to the last stores, without its OFFLOADs and time stamps, and without `setup_inthandler` and `lidt`:
no access here reads the table of interrupts. -/
def Pages.share (P : Pages) : List Access :=
  P.enter 0x80000000 ++ (List.range' 0 256).flatMap (fun i => [setEntry P kPageTableEntryFlags i]) ++
    (List.range' 256 256).flatMap (fun i => [setEntry P kPageTableEntryFlags i]) ++
    myMemcpy 0x80100000 0x80000000 0x100000 ++ clearPages ++
    (List.range' 0 256).flatMap (fun i => [setEntry P (1 <<< 0 ||| 1 <<< 2) i]) ++
    (List.range' 256 256).flatMap fun i =>
      [.load (P.pt + 8 * BitVec.ofNat 64 (i - 256)), .storeReg (P.pt + 8 * BitVec.ofNat 64 i)]

/-- `friend_main`. -/
def Pages.copyOnWrite (P : Pages) : List Access := P.share ++ clearPages

/-! ## Entries of the page table -/

def Window (x : Nat) : Prop := 0x50000000 ≤ x ∧ x < 0x50200000

theorem small_frameOf {i : Nat} (hi : i < 512) :
    Small (frameOf i ||| kPageTableEntryFlags) (0x50000000 + i * 0x1000) true ∧
      Small (frameOf i ||| (1 <<< 0 ||| 1 <<< 2)) (0x50000000 + i * 0x1000) false := by
  have hframe : (frameOf i).toNat = 0x50000000 + i * 0x1000 := by
    rw [frameOf, BitVec.toNat_add, BitVec.toNat_mul, BitVec.toNat_ofNat,
      show (0x50000000 : BitVec 64).toNat = 0x50000000 from rfl, show (0x1000 : BitVec 64).toNat = 0x1000 from rfl]
    omega
  have hal : (frameOf i).toNat % 2 ^ 12 = 0 := by omega
  refine ⟨⟨?_, by omega, by omega⟩, ⟨?_, by omega, by omega⟩⟩
  · rw [toNat_or_of_aligned hal (by decide), hframe]
    rfl
  · rw [toNat_or_of_aligned hal (by decide), hframe]
    rfl

/-! ## The invariant -/

section Invariant
variable (mmu : Mmu) (wp : Bool) {P : Pages} {ro : Bool} {c : Nat} {m : Bytes} {s : Paged}

/-- An entry for a frame of the tutorial, writable unless `ro`. -/
def Entry (ro : Bool) (e : BitVec 64) : Prop := ∃ x w, Small e x w ∧ Window x ∧ (ro = false → w = true)

def Target (ro : Bool) (t : Translation) : Prop := Window t.phys.toNat ∧ (ro = false → t.writable = true)

/-- The tables with the first `c` entries of the page table. -/
structure Filled (P : Pages) (ro : Bool) (c : Nat) (m : Bytes) : Prop extends Entered P 0x80000000 m where
  present : ∀ k < c, k < 512 → Entry ro (m.read64 (slot P.pt k))
  absent : ∀ k, c ≤ k → k < 512 → m.read64 (slot P.pt k) = 0

/-- What the processor may have kept is to frames of the tutorial, too. -/
structure Shared (P : Pages) (ro : Bool) (c : Nat) (s : Paged) : Prop where
  direct : Direct P s
  filled : Filled P ro c s.mem
  kept : ∀ v, Region 0x80000000 v → ∀ t ∈ s.tlb v, Target ro t

theorem free_base : Free 0x80000000 := ⟨by decide, by decide, by decide⟩

theorem target_small {e : BitVec 64} {x : Nat} {w : Bool} (he : Small e x w) (hx : Window x) (hw : ro = false → w = true)
    (o : Nat) : Target ro ⟨BitVec.ofNat 64 (x + o % 2 ^ 12), w, true⟩ := by
  obtain ⟨-, hal, -⟩ := he
  refine ⟨?_, hw⟩
  unfold Window at hx ⊢
  rw [BitVec.toNat_ofNat]
  omega

theorem Filled.walk_present (h : Filled P ro c m) {v : BitVec 48} (hv : Region 0x80000000 v) (hc : index v 12 < c) :
    ∃ t, mmu.walk m INITIAL_PML4T v = some t ∧ Target ro t := by
  obtain ⟨x, w, he, hx, hw⟩ := h.present _ hc (index_lt v 12)
  exact ⟨_, h.toEntered.walk_small mmu free_base hv he, target_small he hx hw _⟩

theorem Filled.target (h : Filled P ro c m) {v : BitVec 48} (hv : Region 0x80000000 v) {t : Translation}
    (ht : mmu.walk m INITIAL_PML4T v = some t) : Target ro t := by
  rcases Nat.lt_or_ge (index v 12) c with hlt | hge
  · obtain ⟨t', ht', htarget⟩ := h.walk_present mmu hv hlt
    rwa [Option.some.inj (ht.symm.trans ht')]
  · cases (h.toEntered.walk_absent mmu free_base hv (h.absent _ hge (index_lt v 12))).symm.trans ht

theorem Shared.write (h : Shared P ro c s) {a v : BitVec 64} {c' : Nat} (hf : Filled P ro c' (s.mem.write64 a v)) :
    Shared P ro c' (s.write mmu INITIAL_PML4T a v) := by
  refine ⟨⟨hf.entries, fun w hw t ht => ?_⟩, hf, fun w hw t ht => ?_⟩
  · rcases Paged.mem_write.mp ht with hold | hnew
    · exact h.direct.kept w hw t hold
    · rw [hf.entries.walk_friend hw] at hnew
      exact (Option.some.inj hnew).symm
  · rcases Paged.mem_write.mp ht with hold | hnew
    · exact h.kept w hw t hold
    · exact hf.target mmu hw hnew

theorem Shared.loaded (h : Shared P ro c s) (p : BitVec 64) : Shared P ro c (s.loaded p) :=
  ⟨⟨h.direct.entries, h.direct.kept⟩, h.filled, h.kept⟩

theorem Entry.mono {e : BitVec 64} (h : Entry false e) : Entry true e := by
  obtain ⟨x, w, he, hx, -⟩ := h
  exact ⟨x, w, he, hx, fun hf => absurd hf (by decide)⟩

theorem Shared.mono (h : Shared P false c s) : Shared P true c s := by
  obtain ⟨hd, ⟨he, hpre, habs⟩, hkept⟩ := h
  exact ⟨hd, ⟨he, fun k hk hk' => (hpre k hk hk').mono, habs⟩, fun v hv t ht =>
    ⟨(hkept v hv t ht).1, fun hf => absurd hf (by decide)⟩⟩

/-! ## The accesses -/

theorem Filled.set (h : Filled P ro c m) {e : BitVec 64} (he : Entry ro e) {k : Nat} (hk : k < 512) (hkc : k ≤ c) :
    Filled P ro (max c (k + 1)) (m.write64 (slot P.pt k) e) := by
  have hpt : P.pt ∈ P.all := by simp [Pages.all]
  refine ⟨h.toEntered.write free_base hk e, fun j hj hj' => ?_, fun j hj hj' => ?_⟩
  · by_cases hjk : j = k
    · subst hjk
      rwa [Bytes.read64_write64_self]
    · rw [Pages.read_write hpt hpt hk hj' (.inr (Ne.symm hjk))]
      exact h.present j (by omega) hj'
  · rw [Pages.read_write hpt hpt hk hj' (.inr (by omega))]
    exact h.absent j (by omega) hj'

/-- The frames of the tutorial are not those of the tables. -/
theorem read_data {p : BitVec 64} (hp : Window p.toNat) (v : BitVec 64) {t : BitVec 64} (ht : t ∈ P.all) {i : Nat}
    (hi : i < 512) : (m.write64 p v).read64 (slot t i) = m.read64 (slot t i) := by
  have hslot := Pages.toNat_slot ht hi
  have hbounds : t.toNat = 0x71000 ∨ 0x100000000 ≤ t.toNat ∧ t.toNat < 0x140000000 := by
    rcases List.mem_cons.mp ht with rfl | ht
    · exact .inl rfl
    · exact .inr (inFriend_iff.mp (Pages.inFriend_all ht))
  unfold Window at hp
  exact Bytes.read64_write64_apart m v (by omega) (by omega) (by omega)

theorem Filled.data (h : Filled P ro c m) {p : BitVec 64} (hp : Window p.toNat) (v : BitVec 64) :
    Filled P ro c (m.write64 p v) := by
  obtain ⟨hroot, hpdpt, hpd1, hpd2⟩ : INITIAL_PML4T ∈ P.all ∧ P.pdpt ∈ P.all ∧ P.pd1 ∈ P.all ∧ P.pd2 ∈ P.all := by
    simp [Pages.all]
  obtain ⟨hpd, hpt⟩ : P.pd ∈ P.all ∧ P.pt ∈ P.all := by simp [Pages.all]
  refine ⟨⟨⟨?_, ?_, ?_, ?_, fun i hi => ?_⟩, ?_, ?_⟩, fun k hk hk' => ?_, fun k hk hk' => ?_⟩
  · exact (read_data hp v hroot (by decide)).trans h.entries.root
  · exact (read_data hp v hpdpt (by decide)).trans h.entries.low
  · exact (read_data hp v hpdpt (by decide)).trans h.entries.high
  · exact (read_data hp v hpd1 (by decide)).trans h.entries.page
  · exact (read_data hp v hpd2 hi).trans (h.entries.friendPages i hi)
  · exact (read_data hp v hpdpt (by decide)).trans h.directory
  · exact (read_data hp v hpd (by decide)).trans h.table
  · rw [read_data hp v hpt hk']
    exact h.present k hk hk'
  · exact (read_data hp v hpt hk').trans (h.absent k hk hk')

def InPages (a : BitVec 64) : Prop := a.toNat / 2 ^ 21 = (0x80000000 : BitVec 64).toNat / 2 ^ 21

theorem Shared.pick (h : Shared P ro 512 s) {a : BitVec 64} (ha : InPages a) (n : Nat) :
    ∃ t, s.pick mmu INITIAL_PML4T (a.setWidth 48) n = some t ∧ Target ro t := by
  obtain ⟨hreg, -, -⟩ := Region.of_vaddr free_base ha
  obtain ⟨t₀, hwalk, htarget⟩ := h.filled.walk_present mmu hreg (index_lt _ 12)
  obtain ⟨t, hpick, hkept | rfl⟩ := Paged.pick_some hwalk n
  · exact ⟨t, hpick, h.kept _ hreg t hkept⟩
  · exact ⟨t, hpick, htarget⟩

theorem load_data {a : BitVec 64} (ha : InPages a) :
    Paged.Triple mmu wp INITIAL_PML4T (Shared P ro 512) [.load a] (Shared P ro 512) := by
  refine .one fun n s hs => ?_
  obtain ⟨t, hpick, -⟩ := hs.pick mmu ha n
  exact ⟨s.loaded t.phys, by rw [Paged.exec, hpick, Option.map_some], hs.loaded t.phys⟩

theorem Shared.storeAt (h : Shared P ro 512 s) (hwp : wp = false ∨ ro = false) {a : BitVec 64} (ha : InPages a)
    (v : BitVec 64) (n : Nat) :
    ∃ s', Paged.storeAt mmu wp INITIAL_PML4T n s a v = some s' ∧ Shared P ro 512 s' := by
  obtain ⟨t, hpick, hwindow, hw⟩ := h.pick mmu ha n
  exact ⟨_, Paged.storeAt_eq hpick (hwp.imp_right hw), h.write mmu (h.filled.data hwindow v)⟩

theorem copy_data (hwp : wp = false ∨ ro = false) {dst src : BitVec 64} (hd : InPages dst) (hs : InPages src) :
    Paged.Triple mmu wp INITIAL_PML4T (Shared P ro 512) [.load src, .storeReg dst] (Shared P ro 512) :=
  (load_data mmu wp hs).append (.one fun n _ h => h.storeAt mmu wp hwp hd _ n)

theorem inPages_add {b o : BitVec 64} (hb : 0x80000000 ≤ b.toNat) (ho : b.toNat + o.toNat < 0x80200000) :
    InPages (b + o) := by
  rw [InPages, BitVec.toNat_add, show (0x80000000 : BitVec 64).toNat = 0x80000000 from rfl]
  omega

theorem triple_myMemcpy (hwp : wp = false ∨ ro = false) :
    Paged.Triple mmu wp INITIAL_PML4T (Shared P ro 512) (myMemcpy 0x80100000 0x80000000 0x100000) (Shared P ro 512) := by
  refine .each fun i hi => ?_
  obtain ⟨j, hj, rfl⟩ := List.mem_range'.mp hi
  have ho : (8 * BitVec.ofNat 64 (0 + 8 * j)).toNat = 64 * j := by
    rw [BitVec.toNat_mul, toNat_eight, BitVec.toNat_ofNat]
    omega
  refine copy_data mmu wp hwp (inPages_add (by decide) ?_) (inPages_add (by decide) ?_)
  · rw [ho, show (0x80100000 : BitVec 64).toNat = 0x80100000 from rfl]
    omega
  · rw [ho, show (0x80000000 : BitVec 64).toNat = 0x80000000 from rfl]
    omega

theorem inPages_clear {i : Nat} (hi : i < 256) : InPages (0x80100000 + BitVec.ofNat 64 i * 0x1000) := by
  refine inPages_add (by decide) ?_
  rw [BitVec.toNat_mul, BitVec.toNat_ofNat, show (0x1000 : BitVec 64).toNat = 0x1000 from rfl,
    show (0x80100000 : BitVec 64).toNat = 0x80100000 from rfl]
  omega

theorem triple_clearPages (hwp : wp = false ∨ ro = false) :
    Paged.Triple mmu wp INITIAL_PML4T (Shared P ro 512) clearPages (Shared P ro 512) := by
  refine .each fun i hi => .one fun n s hs => hs.storeAt mmu wp hwp (inPages_clear ?_) 0 n
  obtain ⟨j, hj, rfl⟩ := List.mem_range'.mp hi
  omega

theorem slot_entry {i : Nat} (hi : i < 512) : P.pt + 8 * BitVec.ofNat 64 i = slot P.pt i := by
  apply slot_of_index
  rw [BitVec.toNat_ofNat]
  omega

/-- The entries up to `n` are not writable. -/
def Sealed (P : Pages) (n : Nat) (m : Bytes) : Prop :=
  ∀ k < n, ∃ x, Small (m.read64 (slot P.pt k)) x false ∧ Window x

theorem Sealed.set {n : Nat} (h : Sealed P n m) (hn : n < 512) {e : BitVec 64} {x : Nat} (he : Small e x false)
    (hx : Window x) : Sealed P (n + 1) (m.write64 (slot P.pt n) e) := by
  have hpt : P.pt ∈ P.all := by simp [Pages.all]
  intro k hk
  by_cases hkn : k = n
  · subst hkn
    rw [Bytes.read64_write64_self]
    exact ⟨x, he, hx⟩
  · rw [Pages.read_write hpt hpt hn (by omega) (.inr (Ne.symm hkn))]
    exact h k (by omega)

theorem window_frameOf {i : Nat} (hi : i < 512) : Window (0x50000000 + i * 0x1000) := by
  unfold Window
  omega

/-- The page table is filled. -/
theorem triple_setEntry {i : Nat} (hi : i < 512) :
    Paged.Triple mmu wp INITIAL_PML4T (Shared P false i) [setEntry P kPageTableEntryFlags i] (Shared P false (i + 1)) := by
  refine .one fun n s hs => ?_
  have he : Entry false (frameOf i ||| kPageTableEntryFlags) :=
    ⟨_, _, (small_frameOf hi).1, window_frameOf hi, fun _ => rfl⟩
  have hset := hs.write mmu (hs.filled.set he hi le_rfl)
  rw [Nat.max_eq_right (Nat.le_succ i)] at hset
  refine ⟨_, ?_, hset⟩
  rw [setEntry, slot_entry hi]
  exact hs.direct.store mmu wp (P.own_pt i) hi _ n

/-- The first half of it is made read-only, -/
theorem triple_protect {i : Nat} (hi : i < 512) :
    Paged.Triple mmu wp INITIAL_PML4T (fun s => Shared P true 512 s ∧ Sealed P i s.mem)
      [setEntry P (1 <<< 0 ||| 1 <<< 2) i] (fun s => Shared P true 512 s ∧ Sealed P (i + 1) s.mem) := by
  refine .one fun n s h => ?_
  obtain ⟨hs, hsealed⟩ := h
  have hsmall := (small_frameOf hi).2
  have hset := hs.write mmu (hs.filled.set ⟨_, _, hsmall, window_frameOf hi, fun hf => absurd hf (by decide)⟩ hi hi.le)
  rw [Nat.max_eq_left (Nat.succ_le_of_lt hi)] at hset
  refine ⟨_, ?_, hset, hsealed.set hi hsmall (window_frameOf hi)⟩
  rw [setEntry, slot_entry hi]
  exact hs.direct.store mmu wp (P.own_pt i) hi _ n

/-- and copied to the second. -/
theorem triple_share {i : Nat} (hlo : 256 ≤ i) (hi : i < 512) :
    Paged.Triple mmu wp INITIAL_PML4T (fun s => Shared P true 512 s ∧ Sealed P i s.mem)
      [.load (P.pt + 8 * BitVec.ofNat 64 (i - 256)), .storeReg (P.pt + 8 * BitVec.ofNat 64 i)]
      (fun s => Shared P true 512 s ∧ Sealed P (i + 1) s.mem) := by
  have hload : Paged.Triple mmu wp INITIAL_PML4T (fun s => Shared P true 512 s ∧ Sealed P i s.mem)
      [.load (P.pt + 8 * BitVec.ofNat 64 (i - 256))]
      (fun s => (Shared P true 512 s ∧ Sealed P i s.mem) ∧ ∃ x, Small s.reg x false ∧ Window x) := by
    refine .one fun n s h => ?_
    obtain ⟨hs, hsealed⟩ := h
    refine ⟨s.loaded (slot P.pt (i - 256)), ?_, ⟨hs.loaded _, hsealed⟩, ?_⟩
    · rw [slot_entry (by omega), Paged.exec, hs.direct.pick mmu (P.own_pt _) (by omega) n, Option.map_some]
    · exact hsealed (i - 256) (by omega)
  refine hload.append (.one fun n s h => ?_)
  obtain ⟨⟨hs, hsealed⟩, x, hsmall, hx⟩ := h
  have hset := hs.write mmu (hs.filled.set ⟨_, _, hsmall, hx, fun hf => absurd hf (by decide)⟩ hi hi.le)
  rw [Nat.max_eq_left (Nat.succ_le_of_lt hi)] at hset
  refine ⟨_, ?_, hset, hsealed.set hi hsmall hx⟩
  rw [slot_entry hi]
  exact hs.direct.store mmu wp (P.own_pt i) hi _ n

/-! ## `friend_main` -/

theorem triple_enter (hm : Fresh P m) :
    Paged.Triple mmu wp INITIAL_PML4T (· = start mmu m) (P.enter 0x80000000) (Shared P false 0) := by
  rintro ns _ rfl
  obtain ⟨s₁, hexec₁, hbetween, -⟩ := enter_pd mmu wp hm free_base
  obtain ⟨s₂, hexec₂, hinv, -⟩ := hbetween.enter_pt mmu wp free_base
  have hshared : Shared P false 0 s₂ := by
    refine ⟨hinv.direct, ⟨hinv.mapped.toEntered, fun k hk => absurd hk (Nat.not_lt_zero k), fun k _ hk => ?_⟩,
      fun v hv t ht => ?_⟩
    · exact hinv.mapped.pages k hk
    · obtain ⟨frame, hframe, -⟩ := (hinv.kept v hv t).mp ht
      exact absurd hframe List.not_mem_nil
  rw [Pages.enter]
  exact (Paged.forall_runs_cons hexec₁ _).mpr ((Paged.forall_runs_cons hexec₂ _).mpr fun _ => ⟨s₂, rfl, hshared⟩) ns

theorem triple_share_all (hm : Fresh P m) :
    Paged.Triple mmu wp INITIAL_PML4T (· = start mmu m) P.share (fun s => Shared P true 512 s ∧ Sealed P 512 s.mem) := by
  have hfill₁ : Paged.Triple mmu wp INITIAL_PML4T (Shared P false 0)
      ((List.range' 0 256).flatMap fun i => [setEntry P kPageTableEntryFlags i]) (Shared P false 256) :=
    .loop fun i _ hi => triple_setEntry mmu wp (by omega)
  have hfill₂ : Paged.Triple mmu wp INITIAL_PML4T (Shared P false 256)
      ((List.range' 256 256).flatMap fun i => [setEntry P kPageTableEntryFlags i]) (Shared P false 512) :=
    .loop fun i _ hi => triple_setEntry mmu wp (by omega)
  have hprotect := Paged.Triple.loop (I := fun i s => Shared P true 512 s ∧ Sealed P i s.mem) (n := 256) (a := 0)
    fun i _ hi => triple_protect mmu wp (by omega)
  have hshare := Paged.Triple.loop (I := fun i s => Shared P true 512 s ∧ Sealed P i s.mem) (n := 256) (a := 256)
    fun i hlo hi => triple_share mmu wp hlo (by omega)
  have hnone : ∀ s, Shared P false 512 s → Shared P true 512 s ∧ Sealed P 0 s.mem :=
    fun s hs => ⟨hs.mono, fun k hk => absurd hk (Nat.not_lt_zero k)⟩
  exact ((((((triple_enter mmu wp hm).append hfill₁).append hfill₂).append (triple_myMemcpy mmu wp (.inr rfl))).append
    (triple_clearPages mmu wp (.inr rfl))).append (hprotect.consequence hnone fun _ h => h)).append hshare

theorem fault_clearPages (hs : Shared P true 512 s) (hsealed : Sealed P 512 s.mem) :
    ∃ n, Paged.runs mmu true INITIAL_PML4T clearPages [n] s = none := by
  have hin : InPages 0x80100000 := rfl
  obtain ⟨hreg, -, -⟩ := Region.of_vaddr free_base hin
  obtain ⟨x, hsmall, -⟩ := hsealed _ (index_lt ((0x80100000 : BitVec 64).setWidth 48) 12)
  have hwalk := hs.filled.toEntered.walk_small mmu free_base hreg hsmall
  obtain ⟨n, hn⟩ := Paged.exists_pick_walk mmu INITIAL_PML4T s ((0x80100000 : BitVec 64).setWidth 48)
  refine ⟨n, ?_⟩
  have hexec : Paged.exec mmu true INITIAL_PML4T n s (.store 0x80100000 0) = none := by
    rw [Paged.exec, Paged.storeAt, hn, hwalk, Option.bind_some, if_pos ⟨rfl, rfl⟩]
  have hclear : clearPages = .store (0x80100000 + BitVec.ofNat 64 0 * 0x1000) 0 ::
      (List.range' 1 255).flatMap fun i => [.store (0x80100000 + BitVec.ofNat 64 i * 0x1000) 0] := rfl
  rw [hclear, Paged.runs, List.headD_cons, show (0x80100000 + BitVec.ofNat 64 0 * 0x1000 : BitVec 64) = 0x80100000 from rfl,
    hexec, Option.bind_none]

/-- **Whether a store faults.** With `CR0.WP` set, as it is to be for copying on write, some run comes to a fault; with it
clear none does, whatever the processor keeps. A core that comes from the trampoline has it clear, so that its
`fault_handler` does not run and no page is copied. -/
theorem copy_on_write_faults_iff (hm : Fresh P m) {E : X86.Encoding} (A : Hakase.Assembly E) (entry : BitVec 64)
    (cache : X86.Cache) (core : X86.Core) :
    ((∃ ns, Paged.runs mmu wp INITIAL_PML4T P.copyOnWrite ns (start mmu m) = none) ↔ wp = true) ∧
      X86.bit (A.coreAt entry cache core 31).cr0 16 = false := by
  refine ⟨⟨?_, ?_⟩, ?_⟩
  · rintro ⟨ns, hnone⟩
    by_contra hwp
    have hclear : Paged.Triple mmu wp INITIAL_PML4T (Shared P true 512) clearPages (Shared P true 512) :=
      triple_clearPages mmu wp (.inl (Bool.eq_false_of_not_eq_true hwp))
    have hall := (triple_share_all mmu wp hm).append (hclear.consequence (fun _ h => h.1) fun _ h => h)
    obtain ⟨s', hrun, -⟩ := hall ns _ rfl
    rw [Pages.copyOnWrite, hrun] at hnone
    cases hnone
  · rintro rfl
    obtain ⟨s, hrun, hs, hsealed⟩ := triple_share_all mmu true hm (List.replicate P.share.length 0) _ rfl
    obtain ⟨n, hn⟩ := fault_clearPages mmu hs hsealed
    refine ⟨List.replicate P.share.length 0 ++ [n], ?_⟩
    rw [Pages.copyOnWrite, Paged.runs_append_choices List.length_replicate, hrun, Option.bind_some, hn]
  · exact show X86.bit 0x80000011 16 = false by decide

end Invariant

/-- On one machine: a run that faults if `CR0.WP` were set, and none as the trampoline leaves it. -/
theorem copy_on_write_faults_sample :
    (∃ ns, Paged.runs Hakase.sampleMmu true INITIAL_PML4T samplePages.copyOnWrite ns
      (start Hakase.sampleMmu (tablesOnly samplePages)) = none) ∧
    ¬ ∃ ns, Paged.runs Hakase.sampleMmu
      (X86.bit (Hakase.sampleAssembly.coreAt 0x100010000 .on Hakase.sampleCore 31).cr0 16) INITIAL_PML4T
      samplePages.copyOnWrite ns (start Hakase.sampleMmu (tablesOnly samplePages)) = none := by
  have hiff := fun wp => copy_on_write_faults_iff Hakase.sampleMmu wp (fresh_tablesOnly samplePages) Hakase.sampleAssembly
    0x100010000 .on Hakase.sampleCore
  refine ⟨(hiff true).1.mpr rfl, fun hfault => ?_⟩
  have hset := (hiff _).1.mp hfault
  exact Bool.false_ne_true ((hiff true).2.symm.trans hset)

end Toshokan.Tutorial
