import Toshokan.Lib.Sched
import Toshokan.Hakase.FriendBoot16

/-!
# The trampoline at work

A core that is started comes to `entry16` in real mode and leaves for the entry point of the friend in 64-bit mode.

* `course16`, `course32`, `course64` : what every instruction is to do, `coreAt n` : a core after `n` of them;
* `step_course` : the next instruction does it, and changes nothing in memory but the accessed bit of a descriptor.
-/

namespace Toshokan.Hakase
open Lib (Bytes Range)
open Lib.X86

section
variable {E : Encoding} (A : Assembly E)

/-! ## The course of a core -/

/-- The segments of the four descriptors. -/
def code32 : Segment := ⟨0x08, 0, 0xffffffff, false, true⟩
def data32 : Segment := ⟨0x10, 0, 0xffffffff, false, true⟩
def code64 : Segment := ⟨0x10, 0, 0, true, false⟩
def data64 : Segment := ⟨0x18, 0, 0, false, false⟩

def lines : List Nat := 1 :: List.range' 6 8 ++ List.range' 24 17 ++ List.range' 42 5

/-- What the lines do to the registers of a core: the 16-bit code before its far jump, -/
def Assembly.course16 (cache : Cache) : List (Core → Core) :=
  [id,
    fun c => { c with interrupts := false },
    fun c => c.setAx 0x7000,
    fun c => { c with ds := ⟨0x7000, 0x70000, 0xffff, false, false⟩ },
    fun c => { c with gdtBase := A.place 19, gdtLimit := 31 },
    fun c => c.setEax (cache.cr0.setWidth 32),
    fun c => c.setEax (cache.cr0.setWidth 32 ||| 1),
    fun c => { c with cr0 := cache.cr0 ||| 1 }]

/-- the 32-bit code before its far jump, -/
def Assembly.course32 (cache : Cache) : List (Core → Core) :=
  [fun c => c.setAx 0x10,
    fun c => { c with ds := data32 },
    fun c => { c with rdi := INITIAL_PML4T },
    fun c => { c with cr3 := INITIAL_PML4T },
    fun c => c.setEax 0,
    fun c => c.setEax 0xb0,
    fun c => { c with cr4 := 0xb0 },
    fun c => { c with rcx := 0xc0000080 },
    fun c => { c.setEax 0 with rdx := 0 },
    fun c => c.setEax 0x100,
    fun c => { c with efer := 0x100 },
    fun c => c.setEax ((cache.cr0 ||| 1).setWidth 32),
    fun c => c.setEax ((cache.cr0 ||| 1).setWidth 32 ||| 0x80000000),
    -- whatever the caches were, they are on now
    fun c => c.setEax 0x80000011,
    fun c => { c with cr0 := 0x80000011, efer := 0x500 },
    fun c => { c with gdtBase := A.place 48, gdtLimit := 47 }]

/-- and the 64-bit code. -/
def course64 : List (Core → Core) :=
  [fun c => c.setAx 0x18,
    fun c => { c with ds := data64 },
    fun c => { c with ss := data64 },
    fun c => { c with rax := TRAMPOLINE_ADDR + 8 },
    id]

def Assembly.atEntry32 (cache : Cache) (c : Core) : Core :=
  { c with
    rax := (cache.cr0.setWidth 32 ||| 1).setWidth 64, interrupts := false, cr0 := cache.cr0 ||| 1, cr3 := 0, cr4 := 0
    efer := 0, cs := code32, ds := ⟨0x7000, 0x70000, 0xffff, false, false⟩, ss := ⟨0, 0, 0xffff, false, false⟩
    gdtBase := A.place 19, gdtLimit := 31 }

def Assembly.atStart (c : Core) : Core :=
  { c with
    rax := 0x80000011, rcx := 0xc0000080, rdx := 0, rdi := INITIAL_PML4T, interrupts := false, cr0 := 0x80000011
    cr3 := INITIAL_PML4T, cr4 := 0xb0, efer := 0x500, cs := code64, ds := data32, ss := ⟨0, 0, 0xffff, false, false⟩
    gdtBase := A.place 48, gdtLimit := 47 }

/-- The registers but `%rip` after `n` instructions. -/
def Assembly.registersAt (cache : Cache) (c : Core) (n : Nat) : Core :=
  if n < 9 then ((A.course16 cache).take n).foldl (fun c f => f c) (startup 0x70 cache c)
  else if n < 26 then ((A.course32 cache).take (n - 9)).foldl (fun c f => f c) (A.atEntry32 cache c)
  else (course64.take (n - 26)).foldl (fun c f => f c) (A.atStart c)

/-- `%rip` after `n` instructions: an offset in the trampoline, then an address in it, and at last the entry point. -/
def Assembly.ripAt (entry : BitVec 64) (n : Nat) : BitVec 64 :=
  match lines[n]? with
  | some j => if n < 9 then BitVec.ofNat 64 (A.offset j) else A.place j
  | none => entry

/-- A core after `n` instructions, from what was in its registers before it was started. -/
def Assembly.coreAt (entry : BitVec 64) (cache : Cache) (c : Core) (n : Nat) : Core :=
  { A.registersAt cache c n with rip := A.ripAt entry n }

/-! ## Fetching -/

/-- Linear addresses of the trampoline are physical ones: there is no paging, or it is by the tables of `Init`. -/
def Plain (s : Core) : Prop :=
  s.paging = false ∨ (s.longMode = true ∧ bit s.efer 11 = false ∧ bit s.cr4 12 = false ∧ bit s.cr4 20 = false ∧
    bit s.cr4 21 = false ∧ Lib.frame s.cr3 = INITIAL_PML4T)

variable {A} {T : Tables} {cpu : Processor} {entry : BitVec 64} {m : Bytes} {s : Core}

/-- Whatever is mapped to itself, whether accessed and dirty flags are set or not. -/
theorem translate_of_walk (hs : Plain s) (use : Use) {a : BitVec 64} (hlt : a.toNat < 2 ^ 47)
    (hwalk : cpu.walk m.unflag INITIAL_PML4T (a.setWidth 48) = some ⟨(a.setWidth 48).setWidth 64, true, true⟩) :
    cpu.translate m s use a = some a := by
  rw [Lib.Mmu.walk_unflag m (show INITIAL_PML4T.toNat % 8 = 0 from rfl)] at hwalk
  have hwide : (a.setWidth 48).setWidth 64 = a := by
    apply BitVec.eq_of_toNat_eq
    rw [BitVec.toNat_setWidth, BitVec.toNat_setWidth]
    omega
  rcases hs with hp | ⟨hl, hnx, h57, hsmep, hsmap, hroot⟩
  · exact if_pos hp
  · unfold Processor.translate
    by_cases hp : s.paging = false
    · exact if_pos hp
    · rw [if_neg hp, if_pos ⟨hl, hnx, h57, canonical_of_lt hlt⟩, hroot, hwalk, hwide]
      cases use <;> simp [Processor.allowed, hsmep, hsmap]

theorem translate_of_plain (hR : Ready A T entry m) (hs : Plain s) (use : Use) {a : BitVec 64}
    (ha : codePage.covers a = true) : cpu.translate m s use a = some a := by
  have hbounds : 0x70000 ≤ a.toNat ∧ a.toNat < 0x71000 := (Range.covers_iff (by decide)).mp ha
  refine translate_of_walk hs use (by omega) (hR.entries.walk_low ?_)
  rw [BitVec.toNat_setWidth]
  omega

theorem translate_friend (hR : Ready A T entry m) (hs : Plain s) (use : Use) {a : BitVec 64} (ha : InFriend a) :
    cpu.translate m s use a = some a := by
  have hbounds := inFriend_iff.mp ha
  refine translate_of_walk hs use (by omega) (hR.entries.walk_friend ?_)
  rw [BitVec.toNat_setWidth]
  omega

theorem identity_of_plain (hR : Ready A T entry m) (hs : Plain s) (use : Use) {a : BitVec 64} {n : Nat}
    (ha : 0x70000 ≤ a.toNat) (hn : a.toNat + n ≤ 0x71000) : cpu.Identity m s use a n := by
  intro k hk
  have hsum : (a + BitVec.ofNat 64 k).toNat = a.toNat + k := by
    rw [BitVec.toNat_add, BitVec.toNat_ofNat]
    omega
  apply translate_of_plain hR hs use
  rw [Range.covers_iff (by decide), hsum, show codePage.base.toNat = 0x70000 from rfl,
    show codePage.size.toNat = 0x1000 from rfl]
  omega

/-- The core is at the instruction on line `j`, in code of the size that it is written for. -/
structure Fetches (A : Assembly E) (s : Core) (j : Nat) (w : CodeSize) : Prop where
  size : s.size = w
  linear : ∀ k ≤ 15, s.cs.linear s.size s.rip k = some (A.place j)
  plain : Plain s

/-- In real mode `%cs` is that of the STARTUP. -/
theorem fetches16 {j : Nat} (hj : j ≤ 58) (hcs : s.cs = ⟨0x7000, 0x70000, 0xffff, false, false⟩) (hp : s.paging = false)
    (hrip : s.rip = BitVec.ofNat 64 (A.offset j)) : Fetches A s j .code16 := by
  have hsize : s.size = .code16 := by
    unfold Core.size
    rw [hcs]
    simp
  refine ⟨hsize, fun k hk => ?_, .inl hp⟩
  have hle := A.offset_le j
  rw [hsize, hcs, hrip, Segment.linear, if_neg (by decide), if_pos]
  · refine congrArg some (BitVec.eq_of_toNat_eq ?_)
    rw [A.toNat_place (by omega), BitVec.toNat_setWidth, BitVec.toNat_add, BitVec.toNat_setWidth, BitVec.toNat_ofNat,
      show (0x70000 : BitVec 32).toNat = 0x70000 from rfl]
    omega
  · rw [BitVec.toNat_ofNat, show (0xffff : BitVec 32).toNat = 0xffff from rfl]
    omega

theorem fetches32 {j : Nat} (hj : j ≤ 58) (hcs : s.cs = code32) (hs : Plain s) (hrip : s.rip = A.place j) :
    Fetches A s j .code32 := by
  have hsize : s.size = .code32 := by
    unfold Core.size
    rw [hcs]
    simp [code32]
  refine ⟨hsize, fun k hk => ?_, hs⟩
  have hle := A.offset_le j
  have hplace := A.toNat_place (j := j) (by omega)
  rw [hsize, hcs, hrip, Segment.linear, if_neg (by decide), if_pos]
  · refine congrArg some (BitVec.eq_of_toNat_eq ?_)
    rw [BitVec.toNat_setWidth, BitVec.toNat_add, BitVec.toNat_setWidth, hplace, show code32.base.toNat = 0 from rfl]
    omega
  · rw [hplace, show code32.limit.toNat = 0xffffffff from rfl]
    omega

theorem fetches64 {j : Nat} (hcs : s.cs = code64) (hl : s.longMode = true) (hs : Plain s) (hrip : s.rip = A.place j) :
    Fetches A s j .code64 := by
  have hsize : s.size = .code64 := by
    unfold Core.size
    rw [hcs, hl]
    simp [code64]
  refine ⟨hsize, fun k _ => ?_, hs⟩
  rw [hsize, hrip]
  exact if_pos rfl

theorem step_line (hR : Ready A T entry m) {j : Nat} {w : CodeSize} {i : Instr Operand}
    (hl : friendBoot16[j]? = some (.code w i)) (h : Fetches A s j w) :
    cpu.step E m s = cpu.exec m s (s.rip + BitVec.ofNat 64 (A.enc j).length)
      (i.map (Operand.value A.enc (offsetOf A.enc (j + 1)))) := by
  obtain ⟨hpos, hlen⟩ := A.length_enc j
  have hne : j ≠ 4 ∧ j ∉ descriptorLines := by
    refine ⟨?_, fun hmem => ?_⟩
    · rintro rfl
      cases hl
    · simp only [descriptorLines, List.mem_cons, List.not_mem_nil, or_false] at hmem
      rcases hmem with rfl | rfl | rfl | rfl <;> cases hl
  have hle := A.offset_succ_le hl
  have hsucc := A.offset_code hl
  have hplace := A.toNat_place (Assembly.line_lt hl).le
  refine Processor.step_of_bytes (A.encodes j w i hl) h.size hpos (fun k hk => h.linear k (hk.trans hlen)) ?_ ?_
  · exact identity_of_plain hR h.plain .fetch (by omega) (by dsimp only; omega)
  · intro k hk
    have hcode := hR.holds j _ hl hne.1 hne.2 k hk
    rw [← hcode, Assembly.place, BitVec.add_assoc, ← BitVec.ofNat_add]
    rfl

/-- The next instruction of the core is in the page of the code, or it cannot be fetched. -/
def inTrampoline (s : Core) : Bool := (s.cs.linear s.size s.rip 1).all codePage.covers

theorem Fetches.inTrampoline {j : Nat} {w : CodeSize} (hj : j ≤ 58) (h : Fetches A s j w) : inTrampoline s = true := by
  have hle := A.offset_le j
  rw [Hakase.inTrampoline, h.linear 1 (by decide), Option.all_some, Range.covers_iff (by decide),
    A.toNat_place (by omega), show codePage.base.toNat = 0x70000 from rfl, show codePage.size.toNat = 0x1000 from rfl]
  omega

/-! ## The next instruction -/

/-- The core is in the trampoline, does what the course says, and changes nothing in memory but perhaps an accessed
bit. -/
def Advances (A : Assembly E) (cpu : Processor) (entry : BitVec 64) (m : Bytes) (cache : Cache) (c : Core) (n : Nat) : Prop :=
  inTrampoline (A.coreAt entry cache c n) = true ∧
  ∃ m', cpu.step E m (A.coreAt entry cache c n) = some (A.coreAt entry cache c (n + 1), m') ∧
    (m' = m ∨ ∃ j ∈ descriptorLines, m' = A.mark m j)

variable {cache : Cache} {c : Core}

theorem place_next {j : Nat} {l : Line} (hl : friendBoot16[j]? = some l) :
    A.place (j + 1) = A.place j + BitVec.ofNat 64 (l.size (A.enc j) (A.offset j)) := by
  rw [Assembly.place, Assembly.place, A.offset_succ hl, BitVec.ofNat_add, BitVec.add_assoc]

theorem place_succ {j : Nat} {w : CodeSize} {i : Instr Operand} (hl : friendBoot16[j]? = some (.code w i)) :
    A.place j + BitVec.ofNat 64 (A.enc j).length = A.place (j + 1) := (place_next hl).symm

theorem ofNat_offset_succ {j : Nat} {w : CodeSize} {i : Instr Operand} (hl : friendBoot16[j]? = some (.code w i)) :
    BitVec.ofNat 64 (A.offset j) + BitVec.ofNat 64 (A.enc j).length = BitVec.ofNat 64 (A.offset (j + 1)) := by
  rw [A.offset_code hl, BitVec.ofNat_add]

theorem foldl_take_succ {α : Type} {fs : List (α → α)} {k : Nat} {f : α → α} (h : fs[k]? = some f) (x : α) :
    (fs.take (k + 1)).foldl (fun x f => f x) x = f ((fs.take k).foldl (fun x f => f x) x) := by
  rw [List.take_add_one, h, Option.toList_some, List.foldl_append]
  rfl

theorem registersAt16 {n : Nat} {f : Core → Core} (hf : (A.course16 cache)[n]? = some f) :
    A.registersAt cache c (n + 1) = f (A.registersAt cache c n) := by
  have hn : n < 8 := (List.getElem?_eq_some_iff.mp hf).1
  rw [Assembly.registersAt, Assembly.registersAt, if_pos (by omega), if_pos (by omega)]
  exact foldl_take_succ hf _

theorem registersAt32 {k : Nat} {f : Core → Core} (hf : (A.course32 cache)[k]? = some f) :
    A.registersAt cache c (9 + k + 1) = f (A.registersAt cache c (9 + k)) := by
  have hk : k < 16 := (List.getElem?_eq_some_iff.mp hf).1
  rw [Assembly.registersAt, Assembly.registersAt, if_neg (by omega), if_pos (by omega), if_neg (by omega),
    if_pos (by omega), show 9 + k + 1 - 9 = k + 1 by omega, show 9 + k - 9 = k by omega]
  exact foldl_take_succ hf _

theorem registersAt64 {k : Nat} {f : Core → Core} (hf : course64[k]? = some f) :
    A.registersAt cache c (26 + k + 1) = f (A.registersAt cache c (26 + k)) := by
  rw [Assembly.registersAt, Assembly.registersAt, if_neg (by omega), if_neg (by omega), if_neg (by omega),
    if_neg (by omega), show 26 + k + 1 - 26 = k + 1 by omega, show 26 + k - 26 = k by omega]
  exact foldl_take_succ hf _

/-- An instruction that goes on to the next line. -/
theorem advance {n j : Nat} {w : CodeSize} {i : Instr Operand} {f : Core → Core} {m' : Bytes} (hR : Ready A T entry m)
    (hreg : A.registersAt cache c (n + 1) = f (A.registersAt cache c n))
    (hl : friendBoot16[j]? = some (.code w i)) (hf : Fetches A (A.coreAt entry cache c n) j w)
    (hrip : (A.coreAt entry cache c n).rip + BitVec.ofNat 64 (A.enc j).length = A.ripAt entry (n + 1))
    (hexec : ∀ next, cpu.exec m (A.coreAt entry cache c n) next (i.map (Operand.value A.enc (offsetOf A.enc (j + 1)))) =
      some ({ f (A.registersAt cache c n) with rip := next }, m'))
    (hm : m' = m ∨ ∃ j ∈ descriptorLines, m' = A.mark m j) : Advances A cpu entry m cache c n := by
  refine ⟨hf.inTrampoline (Nat.le_of_lt_succ (Assembly.line_lt hl)), m', ?_, hm⟩
  rw [step_line hR hl hf, hexec, hrip, ← hreg]
  rfl

theorem paging_of {v : BitVec 64} {b : Bool} (h : s.cr0 = v) (hb : bit v 31 = b) : s.paging = b := by
  rw [Core.paging, h, hb]

theorem Cache.paging_cr0 (x : Cache) : bit x.cr0 31 = false := by cases x <;> decide

theorem Cache.paging_pe (x : Cache) : bit (x.cr0 ||| 1) 31 = false := by cases x <;> decide

theorem place_eq_add {j j' k : Nat} (h : A.offset j' = A.offset j + k) : A.place j' = A.place j + BitVec.ofNat 64 k := by
  rw [Assembly.place, Assembly.place, h, BitVec.ofNat_add, BitVec.add_assoc]

theorem setWidth_place {j : Nat} (hj : j ≤ 59) : ((A.place j).setWidth 32).setWidth 64 = A.place j := by
  have hplace := A.toNat_place hj
  have hle := A.offset_le j
  apply BitVec.eq_of_toNat_eq
  rw [BitVec.toNat_setWidth, BitVec.toNat_setWidth]
  omega

/-! ### The descriptor tables -/

theorem offset_descriptors (A : Assembly E) : A.offset 21 = A.offset 19 + 8 ∧ A.offset 22 = A.offset 19 + 16 ∧
    A.offset 51 = A.offset 48 + 16 ∧ A.offset 52 = A.offset 48 + 24 := by
  have h20 : A.offset 20 = A.offset 19 := A.offset_label (j := 19) rfl
  have h21 : A.offset 21 = A.offset 20 + 8 := A.offset_quad (j := 20) rfl
  have h22 : A.offset 22 = A.offset 21 + 8 := A.offset_quad (j := 21) rfl
  have h49 : A.offset 49 = A.offset 48 := A.offset_label (j := 48) rfl
  have h50 : A.offset 50 = A.offset 49 + 8 := A.offset_quad (j := 49) rfl
  have h51 : A.offset 51 = A.offset 50 + 8 := A.offset_quad (j := 50) rfl
  have h52 : A.offset 52 = A.offset 51 + 8 := A.offset_quad (j := 51) rfl
  omega

theorem descriptorAddr_eq {sel : BitVec 16} {j k l : Nat} (hbase : s.gdtBase = A.place j)
    (hsel : (sel &&& 0xfff8).setWidth 64 = BitVec.ofNat 64 k) (h : A.offset l = A.offset j + k) :
    Processor.descriptorAddr s sel = A.place l := by
  rw [Processor.descriptorAddr, hbase, hsel, place_eq_add h]

variable (cpu) in
/-- The pseudo-descriptor on line `j`. -/
theorem exec_lgdtl (hR : Ready A T entry m) (hs : Plain s) (hsize : s.size ≠ .code64) {a : BitVec 64} {j : Nat}
    (hj : j ≤ 58) (hlin : s.ds.linear s.size a 6 = some (A.place j)) (next : BitVec 64) :
    cpu.exec m s next (.lgdtl a) = some ({ s with
      gdtLimit := m.read16 (A.place j), gdtBase := (m.read32 (A.place j + 2)).setWidth 64, rip := next }, m) := by
  have hplace := A.toNat_place (j := j) (by omega)
  have hle := A.offset_le j
  have hid : cpu.Identity m s .read (A.place j) 6 := identity_of_plain hR hs .read (by omega) (by omega)
  have h16 := (hid.agree.mono (l := 2) (by decide)).read16
  have h32 := (hid.agree.shift 2 (l := 4) (by decide)).read32
  rw [Processor.exec, if_neg hsize, hlin, Option.bind_some, Processor.read_of_identity hid _ (by rw [h16, h32])]
  rfl

/-- A selector whose descriptor is on line `j`. -/
theorem load_line (hR : Ready A T entry m) (hs : Plain s) (ok : BitVec 16 → BitVec 64 → Bool) {j : Nat}
    {sel : BitVec 16} {v : BitVec 64} (hj : j ∈ descriptorLines) (hl : friendBoot16[j]? = some (.quad (.imm v)))
    (hsel : sel &&& 0xfff8 ≠ 0 ∧ sel &&& 4 = 0 ∧ sel ||| 7 ≤ s.gdtLimit)
    (haddr : Processor.descriptorAddr s sel = A.place j) (hok : ok sel v = true ∧ ok sel (v ||| accessed) = true)
    (hseg : descriptorSegment sel (v ||| accessed) = descriptorSegment sel v) :
    ∃ m', cpu.load m s ok sel = some (descriptorSegment sel v, m') ∧ (m' = m ∨ ∃ j ∈ descriptorLines, m' = A.mark m j) := by
  have hplace := A.toNat_place (Assembly.line_lt hl).le
  obtain ⟨hsucc, hfive⟩ := quad_bounds (A := A) hl
  have hle := A.offset_succ_le hl
  have hread : cpu.Identity m s .read (A.place j) 8 := identity_of_plain hR hs .read (by omega) (by omega)
  have hwrite : cpu.translate m s .write (A.place j + 5) = some (A.place j + 5) := by
    apply translate_of_plain hR hs .write
    rw [Range.covers_iff (by decide), hfive, show codePage.base.toNat = 0x70000 from rfl,
      show codePage.size.toNat = 0x1000 from rfl]
    omega
  -- the descriptor may have been marked by another core
  have hd : ∃ d, m.read64 (A.place j) = d ∧ ok sel d = true ∧ descriptorSegment sel d = descriptorSegment sel v := by
    rcases hR.descriptor j hj v hl with hd | hd
    · exact ⟨v, hd, hok.1, rfl⟩
    · exact ⟨_, hd, hok.2, hseg⟩
  obtain ⟨d, hd, hokd, hsegd⟩ := hd
  rw [← haddr] at hread hwrite hd
  refine ⟨_, by rw [Processor.load_of_identity hsel hread hwrite hd hokd, hsegd], ?_⟩
  split
  · exact .inl rfl
  · refine .inr ⟨j, hj, ?_⟩
    rw [haddr]
    rfl

theorem exec_ljmpl {sel : BitVec 16} {t : Segment} {m' : Bytes} {a : BitVec 64} (hsize : s.size ≠ .code64)
    (hpe : s.protectedMode = true) (hload : cpu.load m s (codeOk s) sel = some (t, m'))
    (hfetch : ({ s with cs := t }).canFetch a = true) (next : BitVec 64) :
    cpu.exec m s next (.ljmpl sel a) = some ({ s with cs := t, rip := a }, m') := by
  rw [Processor.exec, if_neg hsize, if_pos hpe, hload, Option.bind_some]
  dsimp only
  rw [Core.jump, if_pos hfetch]
  rfl

theorem exec_movwAxDs {sel : BitVec 16} {t : Segment} {m' : Bytes} (hpe : s.protectedMode = true) (hax : s.ax = sel)
    (hload : cpu.load m s dataOk sel = some (t, m')) (next : BitVec 64) :
    cpu.exec m s next .movwAxDs = some ({ s with ds := t, rip := next }, m') := by
  rw [Processor.exec, if_pos hpe, hax, hload]
  rfl

theorem exec_movwAxSs {sel : BitVec 16} {t : Segment} {m' : Bytes} (hpe : s.protectedMode = true) (hax : s.ax = sel)
    (hload : cpu.load m s stackOk sel = some (t, m')) (next : BitVec 64) :
    cpu.exec m s next .movwAxSs = some ({ s with ss := t, rip := next }, m') := by
  rw [Processor.exec, if_pos hpe, hax, hload]
  rfl

/-! ### Real mode -/

section Real
variable (hR : Ready A T entry m)
include hR

/-- The next line of real-mode code. -/
theorem advance16 {n j : Nat} {i : Instr Operand} {f : Core → Core} (hl : friendBoot16[j]? = some (.code .code16 i))
    (hj : j ≤ 58) (hf : (A.course16 cache)[n]? = some f)
    (hcs : (A.coreAt entry cache c n).cs = ⟨0x7000, 0x70000, 0xffff, false, false⟩)
    (hcr0 : (A.coreAt entry cache c n).cr0 = cache.cr0)
    (hrip : (A.coreAt entry cache c n).rip = BitVec.ofNat 64 (A.offset j))
    (hrip' : A.ripAt entry (n + 1) = BitVec.ofNat 64 (A.offset (j + 1)))
    (hexec : ∀ next, cpu.exec m (A.coreAt entry cache c n) next (i.map (Operand.value A.enc (offsetOf A.enc (j + 1)))) =
      some ({ f (A.registersAt cache c n) with rip := next }, m)) : Advances A cpu entry m cache c n := by
  refine advance hR (registersAt16 hf) hl (fetches16 hj hcs (paging_of hcr0 (Cache.paging_cr0 cache)) hrip) ?_ hexec (.inl rfl)
  rw [hrip, hrip', ofNat_offset_succ hl]

theorem advance_cli : Advances A cpu entry m cache c 1 :=
  advance16 hR (j := 6) rfl (by decide) rfl rfl rfl rfl rfl fun _ => rfl

theorem advance_movwCsAx : Advances A cpu entry m cache c 2 :=
  advance16 hR (j := 7) rfl (by decide) rfl rfl rfl rfl rfl fun _ => rfl

theorem advance_jmp : Advances A cpu entry m cache c 0 := by
  have hf : Fetches A (A.coreAt entry cache c 0) 1 .code16 :=
    fetches16 (by decide) rfl (paging_of (v := cache.cr0) rfl (Cache.paging_cr0 cache)) rfl
  have htarget : CodeSize.code16.wrap (BitVec.ofNat 64 (A.offset 1) + BitVec.ofNat 64 (A.enc 1).length +
      (BitVec.ofNat 64 (A.offset 5) - BitVec.ofNat 64 (A.offset 2))) = BitVec.ofNat 64 (A.offset 6) := by
    have h6 : A.offset 6 = A.offset 5 := A.offset_label (j := 5) rfl
    have hle := A.offset_le 5
    rw [ofNat_offset_succ (j := 1) rfl, add_sub_cancel, h6]
    apply BitVec.eq_of_toNat_eq
    rw [CodeSize.wrap, BitVec.toNat_setWidth, BitVec.toNat_setWidth, BitVec.toNat_ofNat]
    omega
  have hjump : (A.coreAt entry cache c 0).jump (BitVec.ofNat 64 (A.offset 6)) = some (A.coreAt entry cache c 1) := by
    have hle := A.offset_le 6
    refine if_pos ?_
    rw [Core.canFetch, hf.size, if_neg (by decide), decide_eq_true_eq, BitVec.toNat_ofNat,
      show (A.coreAt entry cache c 0).cs.limit.toNat = 0xffff from rfl]
    omega
  refine ⟨hf.inTrampoline (by decide), m, ?_, .inl rfl⟩
  rw [step_line hR (j := 1) rfl hf]
  simp only [Instr.map, Processor.exec, hf.size]
  refine (congrArg (fun a => Option.map (fun c => (c, m)) ((A.coreAt entry cache c 0).jump a)) htarget).trans ?_
  rw [hjump]
  rfl

theorem advance_movwAxDs16 : Advances A cpu entry m cache c 3 := by
  refine advance16 hR (j := 8) rfl (by decide) rfl rfl rfl rfl rfl fun next => ?_
  have hpe : ¬ (A.coreAt entry cache c 3).protectedMode = true := by
    rw [Core.protectedMode, show (A.coreAt entry cache c 3).cr0 = cache.cr0 from rfl]
    cases cache <;> decide
  have hax : (A.coreAt entry cache c 3).ax = 0x7000 := Core.ax_of rfl
  refine (if_neg hpe).trans ?_
  rw [hax]
  rfl

theorem advance_movlCr0Eax16 : Advances A cpu entry m cache c 5 :=
  advance16 hR (j := 10) rfl (by decide) rfl rfl rfl rfl rfl fun _ => rfl

theorem advance_orlEax16 : Advances A cpu entry m cache c 6 := by
  refine advance16 hR (j := 11) rfl (by decide) rfl rfl rfl rfl rfl fun next => ?_
  have heax : (A.coreAt entry cache c 6).eax = cache.cr0.setWidth 32 := Core.eax_of rfl
  simp only [Instr.map, Processor.exec, heax]
  rfl

theorem advance_movlEaxCr016 : Advances A cpu entry m cache c 7 := by
  refine advance16 hR (j := 12) rfl (by decide) rfl rfl rfl rfl rfl fun next => ?_
  have heax : (A.coreAt entry cache c 7).eax = cache.cr0.setWidth 32 ||| 1 := Core.eax_of rfl
  have hval : (cache.cr0.setWidth 32 ||| 1).setWidth 64 ||| 0x10 = cache.cr0 ||| 1 := by cases cache <;> decide
  have hset := Core.setCr0_not_paging (c := A.coreAt entry cache c 7)
    (v := (cache.cr0.setWidth 32 ||| 1).setWidth 64) (by cases cache <;> decide) (by cases cache <;> decide)
    (by rw [(fetches16 (A := A) (j := 12) (by decide) rfl (paging_of (v := cache.cr0) rfl (Cache.paging_cr0 cache)) rfl).size]
        decide)
  have hefer : (A.coreAt entry cache c 7).efer &&& ~~~0x400 = 0 := by
    rw [show (A.coreAt entry cache c 7).efer = 0 from rfl]
    decide
  simp only [Instr.map, Processor.exec, heax, hset, hval, hefer]
  rfl

theorem advance_lgdtl16 : Advances A cpu entry m cache c 4 := by
  have hf : Fetches A (A.coreAt entry cache c 4) 9 .code16 :=
    fetches16 (by decide) rfl (paging_of (v := cache.cr0) rfl (Cache.paging_cr0 cache)) rfl
  refine advance16 hR (j := 9) rfl (by decide) rfl rfl rfl rfl rfl fun next => ?_
  have h17 : A.offset 17 = A.offset 16 := A.offset_label (j := 16) rfl
  have hle := A.offset_le 16
  have hlin : (A.coreAt entry cache c 4).ds.linear (A.coreAt entry cache c 4).size (0 + BitVec.ofNat 64 (A.offset 16)) 6 =
      some (A.place 17) := by
    rw [hf.size, Segment.linear, if_neg (by decide), show (A.coreAt entry cache c 4).ds =
      ⟨0x7000, 0x70000, 0xffff, false, false⟩ from rfl,
      show (0 : BitVec 64) + BitVec.ofNat 64 (A.offset 16) = BitVec.ofNat 64 (A.offset 16) from BitVec.zero_add _, if_pos]
    · refine congrArg some (BitVec.eq_of_toNat_eq ?_)
      rw [A.toNat_place (by decide), BitVec.toNat_setWidth, BitVec.toNat_add, BitVec.toNat_setWidth, BitVec.toNat_ofNat,
        show (0x70000 : BitVec 32).toNat = 0x70000 from rfl]
      omega
    · rw [BitVec.toNat_ofNat, show (0xffff : BitVec 32).toNat = 0xffff from rfl]
      omega
  have hlimit : m.read16 (A.place 17) = 31 := hR.holds 17 _ rfl (by decide) (by decide)
  have hbase : m.read32 (A.place 17 + 2) = (A.place 19).setWidth 32 := by
    rw [show A.place 17 + 2 = A.place 18 from (place_next (j := 17) rfl).symm]
    exact hR.holds 18 _ rfl (by decide) (by decide)
  have hexec := exec_lgdtl cpu hR hf.plain (by rw [hf.size]; decide) (j := 17) (by decide) hlin next
  rw [hlimit, hbase, setWidth_place (by decide)] at hexec
  exact hexec

theorem advance_ljmpl16 : Advances A cpu entry m cache c 8 := by
  have hf : Fetches A (A.coreAt entry cache c 8) 13 .code16 :=
    fetches16 (by decide) rfl (paging_of (v := cache.cr0 ||| 1) rfl (Cache.paging_pe cache)) rfl
  have hpe : (A.coreAt entry cache c 8).protectedMode = true := by
    rw [Core.protectedMode, show (A.coreAt entry cache c 8).cr0 = cache.cr0 ||| 1 from rfl]
    cases cache <;> decide
  have hlong : (A.coreAt entry cache c 8).longMode = false := by
    rw [Core.longMode, show (A.coreAt entry cache c 8).efer = 0 from rfl]
    decide
  have hsel : (0x08 : BitVec 16) &&& 0xfff8 ≠ 0 ∧ (0x08 : BitVec 16) &&& 4 = 0 ∧
      (0x08 : BitVec 16) ||| 7 ≤ (A.coreAt entry cache c 8).gdtLimit := by
    rw [show (A.coreAt entry cache c 8).gdtLimit = 31 from rfl]
    decide
  obtain ⟨m', hload, hm'⟩ := load_line hR hf.plain (codeOk (A.coreAt entry cache c 8)) (j := 21) (v := kernelCode32)
    (by decide) rfl hsel (descriptorAddr_eq (j := 19) rfl (by decide) (offset_descriptors A).1)
    (by unfold codeOk; rw [hlong]; decide) (by decide)
  rw [show descriptorSegment 0x08 kernelCode32 = code32 by decide] at hload
  have hfetch : ({ A.coreAt entry cache c 8 with cs := code32 }).canFetch (A.place 23) = true := by
    have hplace := A.toNat_place (j := 23) (by decide)
    have hle := A.offset_le 23
    rw [Core.canFetch, if_neg]
    · rw [decide_eq_true_eq, show code32.limit.toNat = 0xffffffff from rfl]
      omega
    · unfold Core.size
      simp [code32]
  refine ⟨hf.inTrampoline (by decide), m', ?_, hm'⟩
  rw [step_line hR (j := 13) rfl hf]
  refine (exec_ljmpl (by rw [hf.size]; decide) hpe hload hfetch _).trans ?_
  rw [show A.place 23 = A.place 24 from ((place_next (j := 23) rfl).trans (BitVec.add_zero _)).symm]
  rfl

end Real

/-! ### 32-bit code -/

theorem plain_of_pe (cache : Cache) (hcr0 : s.cr0 = cache.cr0 ||| 1) : Plain s :=
  .inl (paging_of hcr0 (Cache.paging_pe cache))

theorem plain_of_paged (hefer : s.efer = 0x500) (hcr4 : s.cr4 = 0xb0) (hcr3 : s.cr3 = INITIAL_PML4T) : Plain s := by
  refine .inr ?_
  rw [Core.longMode, hefer, hcr4, hcr3]
  decide

theorem protectedMode_of {v : BitVec 64} (h : s.cr0 = v) (hb : bit v 0 = true) : s.protectedMode = true := by
  rw [Core.protectedMode, h, hb]

theorem Cache.protectedMode_pe (x : Cache) : bit (x.cr0 ||| 1) 0 = true := by cases x <;> decide

section Protected
variable (hR : Ready A T entry m)
include hR

theorem advance32 {k j : Nat} {i : Instr Operand} {f : Core → Core} {m' : Bytes}
    (hl : friendBoot16[j]? = some (.code .code32 i)) (hj : j ≤ 58) (hf : (A.course32 cache)[k]? = some f)
    (hcs : (A.coreAt entry cache c (9 + k)).cs = code32) (hs : Plain (A.coreAt entry cache c (9 + k)))
    (hrip : (A.coreAt entry cache c (9 + k)).rip = A.place j) (hrip' : A.ripAt entry (9 + k + 1) = A.place (j + 1))
    (hexec : ∀ next, cpu.exec m (A.coreAt entry cache c (9 + k)) next
      (i.map (Operand.value A.enc (offsetOf A.enc (j + 1)))) =
        some ({ f (A.registersAt cache c (9 + k)) with rip := next }, m'))
    (hm : m' = m ∨ ∃ j ∈ descriptorLines, m' = A.mark m j) : Advances A cpu entry m cache c (9 + k) := by
  refine advance hR (registersAt32 hf) hl (fetches32 hj hcs hs hrip) ?_ hexec hm
  rw [hrip, hrip', place_succ hl]

theorem advance_movwAx32 : Advances A cpu entry m cache c 9 :=
  advance32 hR (k := 0) (j := 24) rfl (by decide) rfl rfl (plain_of_pe cache rfl) rfl rfl (fun _ => rfl) (.inl rfl)

theorem advance_movwAxDs32 : Advances A cpu entry m cache c 10 := by
  have hs : Plain (A.coreAt entry cache c 10) := plain_of_pe cache rfl
  have hsel : (0x10 : BitVec 16) &&& 0xfff8 ≠ 0 ∧ (0x10 : BitVec 16) &&& 4 = 0 ∧
      (0x10 : BitVec 16) ||| 7 ≤ (A.coreAt entry cache c 10).gdtLimit := by
    rw [show (A.coreAt entry cache c 10).gdtLimit = 31 from rfl]
    decide
  obtain ⟨m', hload, hm'⟩ := load_line hR hs dataOk (j := 22) (v := kernelData32) (by decide) rfl hsel
    (descriptorAddr_eq (j := 19) rfl (by decide) (offset_descriptors A).2.1) (by decide) (by decide)
  rw [show descriptorSegment 0x10 kernelData32 = data32 by decide] at hload
  have hpe : (A.coreAt entry cache c 10).protectedMode = true := protectedMode_of rfl (Cache.protectedMode_pe cache)
  have hax : (A.coreAt entry cache c 10).ax = 0x10 := Core.ax_of rfl
  exact advance32 hR (k := 1) (j := 25) rfl (by decide) rfl rfl hs rfl rfl (exec_movwAxDs hpe hax hload) hm'

theorem advance_movlEdi : Advances A cpu entry m cache c 11 :=
  advance32 hR (k := 2) (j := 26) rfl (by decide) rfl rfl (plain_of_pe cache rfl) rfl rfl (fun _ => rfl) (.inl rfl)

theorem advance_movlEdiCr3 : Advances A cpu entry m cache c 12 := by
  refine advance32 hR (k := 3) (j := 27) rfl (by decide) rfl rfl (plain_of_pe cache rfl) rfl rfl (fun next => ?_) (.inl rfl)
  have hcr3 : ((A.coreAt entry cache c 12).rdi.setWidth 32).setWidth 64 = INITIAL_PML4T := by
    rw [show (A.coreAt entry cache c 12).rdi = INITIAL_PML4T from rfl]
    decide
  simp only [Instr.map, Processor.exec, hcr3]
  rfl

theorem advance_movlCr4Eax : Advances A cpu entry m cache c 13 :=
  advance32 hR (k := 4) (j := 28) rfl (by decide) rfl rfl (plain_of_pe cache rfl) rfl rfl (fun _ => rfl) (.inl rfl)

theorem advance_orlEaxCr4 : Advances A cpu entry m cache c 14 := by
  refine advance32 hR (k := 5) (j := 29) rfl (by decide) rfl rfl (plain_of_pe cache rfl) rfl rfl (fun next => ?_) (.inl rfl)
  have heax : (A.coreAt entry cache c 14).eax = 0 := Core.eax_of rfl
  simp only [Instr.map, Processor.exec, heax]
  rfl

theorem advance_movlEaxCr4 : Advances A cpu entry m cache c 15 := by
  refine advance32 hR (k := 6) (j := 30) rfl (by decide) rfl rfl (plain_of_pe cache rfl) rfl rfl (fun next => ?_) (.inl rfl)
  have heax : (A.coreAt entry cache c 15).eax = 0xb0 := Core.eax_of rfl
  have hlong : ¬ (A.coreAt entry cache c 15).longMode = true := by
    rw [Core.longMode, show (A.coreAt entry cache c 15).efer = 0 from rfl]
    decide
  have hset : cpu.setCr4 (A.coreAt entry cache c 15) 0xb0 = some { A.coreAt entry cache c 15 with cr4 := 0xb0 } :=
    if_neg (not_or.mpr ⟨not_not_intro cpu.cr4Bits_pae, fun h => hlong h.1⟩)
  simp only [Instr.map, Processor.exec, heax, show (0xb0 : BitVec 32).setWidth 64 = 0xb0 by decide, hset]
  rfl

theorem advance_movlEcx : Advances A cpu entry m cache c 16 :=
  advance32 hR (k := 7) (j := 31) rfl (by decide) rfl rfl (plain_of_pe cache rfl) rfl rfl (fun _ => rfl) (.inl rfl)

theorem advance_rdmsr : Advances A cpu entry m cache c 17 := by
  refine advance32 hR (k := 8) (j := 32) rfl (by decide) rfl rfl (plain_of_pe cache rfl) rfl rfl (fun next => ?_) (.inl rfl)
  have hrcx : (A.coreAt entry cache c 17).rcx.setWidth 32 = efer := by
    rw [show (A.coreAt entry cache c 17).rcx = 0xc0000080 from rfl]
    decide
  have hrdx : (A.coreAt entry cache c 17).efer >>> 32 = 0 := by
    rw [show (A.coreAt entry cache c 17).efer = 0 from rfl]
    decide
  simp only [Instr.map, Processor.exec, hrcx, hrdx, if_true]
  rfl

theorem advance_orlEaxEfer : Advances A cpu entry m cache c 18 := by
  refine advance32 hR (k := 9) (j := 33) rfl (by decide) rfl rfl (plain_of_pe cache rfl) rfl rfl (fun next => ?_) (.inl rfl)
  have heax : (A.coreAt entry cache c 18).eax = 0 := Core.eax_of rfl
  simp only [Instr.map, Processor.exec, heax]
  rfl

theorem advance_wrmsr : Advances A cpu entry m cache c 19 := by
  have hs : Plain (A.coreAt entry cache c 19) := plain_of_pe cache rfl
  refine advance32 hR (k := 10) (j := 34) rfl (by decide) rfl rfl hs rfl rfl (fun next => ?_) (.inl rfl)
  have hrcx : (A.coreAt entry cache c 19).rcx.setWidth 32 = efer := by
    rw [show (A.coreAt entry cache c 19).rcx = 0xc0000080 from rfl]
    decide
  have hval : ((A.coreAt entry cache c 19).rdx.setWidth 32 ++ (A.coreAt entry cache c 19).eax : BitVec 64) = 0x100 := by
    rw [show (A.coreAt entry cache c 19).rdx = 0 from rfl,
      show (A.coreAt entry cache c 19).eax = 0x100 from Core.eax_of rfl]
    decide
  have hp : ¬ (A.coreAt entry cache c 19).paging = true := by
    rw [paging_of (v := cache.cr0 ||| 1) rfl (Cache.paging_pe cache)]
    decide
  have hset : (A.coreAt entry cache c 19).setEfer 0x100 = some { A.coreAt entry cache c 19 with efer := 0x100 } := by
    unfold Core.setEfer
    rw [if_neg (not_or.mpr ⟨by decide, fun h => hp h.1⟩), show (A.coreAt entry cache c 19).efer = 0 from rfl]
    rfl
  simp only [Instr.map, Processor.exec, hrcx, if_true]
  rw [hval, hset]
  rfl

theorem advance_movlCr0Eax32 : Advances A cpu entry m cache c 20 :=
  advance32 hR (k := 11) (j := 35) rfl (by decide) rfl rfl (plain_of_pe cache rfl) rfl rfl (fun _ => rfl) (.inl rfl)

theorem advance_orlEaxPg : Advances A cpu entry m cache c 21 := by
  refine advance32 hR (k := 12) (j := 36) rfl (by decide) rfl rfl (plain_of_pe cache rfl) rfl rfl (fun next => ?_) (.inl rfl)
  have heax : (A.coreAt entry cache c 21).eax = (cache.cr0 ||| 1).setWidth 32 := Core.eax_of rfl
  simp only [Instr.map, Processor.exec, heax]
  rfl

theorem advance_andlEax : Advances A cpu entry m cache c 22 := by
  refine advance32 hR (k := 13) (j := 37) rfl (by decide) rfl rfl (plain_of_pe cache rfl) rfl rfl (fun next => ?_) (.inl rfl)
  have heax : (A.coreAt entry cache c 22).eax = (cache.cr0 ||| 1).setWidth 32 ||| 0x80000000 := Core.eax_of rfl
  have hval : ((cache.cr0 ||| 1).setWidth 32 ||| (0x80000000 : BitVec 32)) &&& ~~~(1#32 <<< 30 ||| 1#32 <<< 29) = 0x80000011 := by
    cases cache <;> decide
  simp only [Instr.map, Processor.exec, heax, hval]
  rfl

/-- Paging begins: the next instruction is fetched through the tables of `Init`. -/
theorem advance_movlEaxCr032 : Advances A cpu entry m cache c 23 := by
  refine advance32 hR (k := 14) (j := 38) rfl (by decide) rfl rfl (plain_of_pe cache rfl) rfl rfl (fun next => ?_) (.inl rfl)
  have heax : (A.coreAt entry cache c 23).eax = 0x80000011 := Core.eax_of rfl
  have hefer : (A.coreAt entry cache c 23).efer = 0x100 := rfl
  have hcr4 : (A.coreAt entry cache c 23).cr4 = 0xb0 := rfl
  have hset := Core.setCr0_long (c := A.coreAt entry cache c 23) (v := 0x80000011) (by decide) (by decide) (by decide)
    (paging_of (v := cache.cr0 ||| 1) rfl (Cache.paging_pe cache)) (by rw [hefer]; decide) (by rw [hcr4]; decide) rfl
  rw [hefer] at hset
  simp only [Instr.map, Processor.exec, heax, show (0x80000011 : BitVec 32).setWidth 64 = 0x80000011 by decide, hset]
  rfl

theorem advance_lgdtl32 : Advances A cpu entry m cache c 24 := by
  have hs : Plain (A.coreAt entry cache c 24) := plain_of_paged rfl rfl rfl
  have hf : Fetches A (A.coreAt entry cache c 24) 39 .code32 := fetches32 (by decide) rfl hs rfl
  refine advance32 hR (k := 15) (j := 39) rfl (by decide) rfl rfl hs rfl rfl (fun next => ?_) (.inl rfl)
  have h57 : A.place 57 = A.place 56 := (place_next (j := 56) rfl).trans (BitVec.add_zero _)
  have hplace := A.toNat_place (j := 56) (by decide)
  have hle := A.offset_le 56
  have hlin : (A.coreAt entry cache c 24).ds.linear (A.coreAt entry cache c 24).size (A.place 56) 6 =
      some (A.place 57) := by
    rw [hf.size, Segment.linear, if_neg (by decide), show (A.coreAt entry cache c 24).ds = data32 from rfl, if_pos, h57]
    · refine congrArg some (BitVec.eq_of_toNat_eq ?_)
      rw [BitVec.toNat_setWidth, BitVec.toNat_add, BitVec.toNat_setWidth, hplace, show data32.base.toNat = 0 from rfl]
      omega
    · rw [hplace, show data32.limit.toNat = 0xffffffff from rfl]
      omega
  have hlimit : m.read16 (A.place 57) = 47 := hR.holds 57 _ rfl (by decide) (by decide)
  have hbase : m.read32 (A.place 57 + 2) = (A.place 48).setWidth 32 := by
    have hquad : m.read64 (A.place 58) = A.place 48 := hR.holds 58 _ rfl (by decide) (by decide)
    rw [show A.place 57 + 2 = A.place 58 from (place_next (j := 57) rfl).symm, ← Bytes.setWidth_read64, hquad]
  have hexec := exec_lgdtl cpu hR hs (by rw [hf.size]; decide) (j := 57) (by decide) hlin next
  rw [hlimit, hbase, setWidth_place (by decide)] at hexec
  exact hexec

theorem advance_ljmpl32 : Advances A cpu entry m cache c 25 := by
  have hs : Plain (A.coreAt entry cache c 25) := plain_of_paged rfl rfl rfl
  have hf : Fetches A (A.coreAt entry cache c 25) 40 .code32 := fetches32 (by decide) rfl hs rfl
  have hpe : (A.coreAt entry cache c 25).protectedMode = true := protectedMode_of (v := 0x80000011) rfl (by decide)
  have hlong : (A.coreAt entry cache c 25).longMode = true := by
    rw [Core.longMode, show (A.coreAt entry cache c 25).efer = 0x500 from rfl]
    decide
  have hsel : (0x10 : BitVec 16) &&& 0xfff8 ≠ 0 ∧ (0x10 : BitVec 16) &&& 4 = 0 ∧
      (0x10 : BitVec 16) ||| 7 ≤ (A.coreAt entry cache c 25).gdtLimit := by
    rw [show (A.coreAt entry cache c 25).gdtLimit = 47 from rfl]
    decide
  obtain ⟨m', hload, hm'⟩ := load_line hR hs (codeOk (A.coreAt entry cache c 25)) (j := 51) (v := kernelCode64)
    (by decide) rfl hsel (descriptorAddr_eq (j := 48) rfl (by decide) (offset_descriptors A).2.2.1)
    (by unfold codeOk; rw [hlong]; decide) (by decide)
  rw [show descriptorSegment 0x10 kernelCode64 = code64 by decide] at hload
  have hfetch : ({ A.coreAt entry cache c 25 with cs := code64 }).canFetch (A.place 41) = true := by
    have hplace := A.toNat_place (j := 41) (by decide)
    have hle := A.offset_le 41
    rw [Core.canFetch, if_pos]
    · exact canonical_of_lt (by omega)
    · exact if_pos ⟨hlong, rfl⟩
  refine ⟨hf.inTrampoline (by decide), m', ?_, hm'⟩
  rw [step_line hR (j := 40) rfl hf]
  refine (exec_ljmpl (by rw [hf.size]; decide) hpe hload hfetch _).trans ?_
  rw [show A.place 41 = A.place 42 from ((place_next (j := 41) rfl).trans (BitVec.add_zero _)).symm]
  rfl

end Protected

/-! ### 64-bit code -/

section Long
variable (hR : Ready A T entry m)
include hR

theorem advance64 {k j : Nat} {i : Instr Operand} {f : Core → Core} {m' : Bytes}
    (hl : friendBoot16[j]? = some (.code .code64 i)) (hf : course64[k]? = some f)
    (hcs : (A.coreAt entry cache c (26 + k)).cs = code64) (hefer : (A.coreAt entry cache c (26 + k)).efer = 0x500)
    (hs : Plain (A.coreAt entry cache c (26 + k))) (hrip : (A.coreAt entry cache c (26 + k)).rip = A.place j)
    (hrip' : A.ripAt entry (26 + k + 1) = A.place (j + 1))
    (hexec : ∀ next, cpu.exec m (A.coreAt entry cache c (26 + k)) next
      (i.map (Operand.value A.enc (offsetOf A.enc (j + 1)))) =
        some ({ f (A.registersAt cache c (26 + k)) with rip := next }, m'))
    (hm : m' = m ∨ ∃ j ∈ descriptorLines, m' = A.mark m j) : Advances A cpu entry m cache c (26 + k) := by
  have hlong : (A.coreAt entry cache c (26 + k)).longMode = true := by
    rw [Core.longMode, hefer]
    decide
  refine advance hR (registersAt64 hf) hl (fetches64 hcs hlong hs hrip) ?_ hexec hm
  rw [hrip, hrip', place_succ hl]

theorem advance_movwAx64 : Advances A cpu entry m cache c 26 :=
  advance64 hR (k := 0) (j := 42) rfl rfl rfl rfl (plain_of_paged rfl rfl rfl) rfl rfl (fun _ => rfl) (.inl rfl)

theorem advance_movwAxDs64 : Advances A cpu entry m cache c 27 := by
  have hs : Plain (A.coreAt entry cache c 27) := plain_of_paged rfl rfl rfl
  have hsel : (0x18 : BitVec 16) &&& 0xfff8 ≠ 0 ∧ (0x18 : BitVec 16) &&& 4 = 0 ∧
      (0x18 : BitVec 16) ||| 7 ≤ (A.coreAt entry cache c 27).gdtLimit := by
    rw [show (A.coreAt entry cache c 27).gdtLimit = 47 from rfl]
    decide
  obtain ⟨m', hload, hm'⟩ := load_line hR hs dataOk (j := 52) (v := kernelData64) (by decide) rfl hsel
    (descriptorAddr_eq (j := 48) rfl (by decide) (offset_descriptors A).2.2.2) (by decide) (by decide)
  rw [show descriptorSegment 0x18 kernelData64 = data64 by decide] at hload
  have hpe : (A.coreAt entry cache c 27).protectedMode = true := protectedMode_of (v := 0x80000011) rfl (by decide)
  have hax : (A.coreAt entry cache c 27).ax = 0x18 := Core.ax_of rfl
  exact advance64 hR (k := 1) (j := 43) rfl rfl rfl rfl hs rfl rfl (exec_movwAxDs hpe hax hload) hm'

theorem advance_movwAxSs : Advances A cpu entry m cache c 28 := by
  have hs : Plain (A.coreAt entry cache c 28) := plain_of_paged rfl rfl rfl
  have hsel : (0x18 : BitVec 16) &&& 0xfff8 ≠ 0 ∧ (0x18 : BitVec 16) &&& 4 = 0 ∧
      (0x18 : BitVec 16) ||| 7 ≤ (A.coreAt entry cache c 28).gdtLimit := by
    rw [show (A.coreAt entry cache c 28).gdtLimit = 47 from rfl]
    decide
  obtain ⟨m', hload, hm'⟩ := load_line hR hs stackOk (j := 52) (v := kernelData64) (by decide) rfl hsel
    (descriptorAddr_eq (j := 48) rfl (by decide) (offset_descriptors A).2.2.2) (by decide) (by decide)
  rw [show descriptorSegment 0x18 kernelData64 = data64 by decide] at hload
  have hpe : (A.coreAt entry cache c 28).protectedMode = true := protectedMode_of (v := 0x80000011) rfl (by decide)
  have hax : (A.coreAt entry cache c 28).ax = 0x18 := Core.ax_of rfl
  exact advance64 hR (k := 2) (j := 44) rfl rfl rfl rfl hs rfl rfl (exec_movwAxSs hpe hax hload) hm'

theorem advance_movqRax : Advances A cpu entry m cache c 29 := by
  refine advance64 hR (k := 3) (j := 45) rfl rfl rfl rfl (plain_of_paged rfl rfl rfl) rfl rfl (fun next => ?_) (.inl rfl)
  have haddr : A.place 3 = TRAMPOLINE_ADDR + 8 := by
    rw [← A.place_addr, place_next (j := 3) rfl]
    exact (BitVec.add_zero _).symm
  have hval : TRAMPOLINE_ADDR + Label.addr.value A.enc = TRAMPOLINE_ADDR + 8 := haddr
  simp only [Instr.map, Operand.value, Processor.exec, hval]
  rfl

theorem advance_jmpqRax (hentry : InFriend entry) : Advances A cpu entry m cache c 30 := by
  have hs : Plain (A.coreAt entry cache c 30) := plain_of_paged rfl rfl rfl
  have hlong : (A.coreAt entry cache c 30).longMode = true := by
    rw [Core.longMode, show (A.coreAt entry cache c 30).efer = 0x500 from rfl]
    decide
  have hf : Fetches A (A.coreAt entry cache c 30) 46 .code64 := fetches64 rfl hlong hs rfl
  have hrax : (A.coreAt entry cache c 30).rax = TRAMPOLINE_ADDR + 8 := rfl
  have hid : cpu.Identity m (A.coreAt entry cache c 30) .read (TRAMPOLINE_ADDR + 8) 8 :=
    identity_of_plain hR hs .read (by decide) (by decide)
  have hread : m.read64 (TRAMPOLINE_ADDR + 8) = entry := by
    rw [← A.place_addr]
    exact hR.address
  have hfetch : (A.coreAt entry cache c 30).canFetch entry = true := by
    have hlt := (inFriend_iff.mp hentry).2
    rw [Core.canFetch, if_pos hf.size]
    exact canonical_of_lt (by omega)
  refine ⟨hf.inTrampoline (by decide), m, ?_, .inl rfl⟩
  rw [step_line hR (j := 46) rfl hf]
  simp only [Instr.map, Processor.exec]
  rw [if_pos hf.size, hrax, Processor.read_of_identity hid _ hid.agree.read64, hread, Option.bind_some, Core.jump,
    if_pos hfetch]
  rfl

variable (cpu) in
/-- **Every instruction does what the course says.** -/
theorem step_course (hentry : InFriend entry) (cache : Cache) (c : Core) : ∀ {n : Nat}, n < 31 →
    Advances A cpu entry m cache c n
  | 0, _ => advance_jmp hR
  | 1, _ => advance_cli hR
  | 2, _ => advance_movwCsAx hR
  | 3, _ => advance_movwAxDs16 hR
  | 4, _ => advance_lgdtl16 hR
  | 5, _ => advance_movlCr0Eax16 hR
  | 6, _ => advance_orlEax16 hR
  | 7, _ => advance_movlEaxCr016 hR
  | 8, _ => advance_ljmpl16 hR
  | 9, _ => advance_movwAx32 hR
  | 10, _ => advance_movwAxDs32 hR
  | 11, _ => advance_movlEdi hR
  | 12, _ => advance_movlEdiCr3 hR
  | 13, _ => advance_movlCr4Eax hR
  | 14, _ => advance_orlEaxCr4 hR
  | 15, _ => advance_movlEaxCr4 hR
  | 16, _ => advance_movlEcx hR
  | 17, _ => advance_rdmsr hR
  | 18, _ => advance_orlEaxEfer hR
  | 19, _ => advance_wrmsr hR
  | 20, _ => advance_movlCr0Eax32 hR
  | 21, _ => advance_orlEaxPg hR
  | 22, _ => advance_andlEax hR
  | 23, _ => advance_movlEaxCr032 hR
  | 24, _ => advance_lgdtl32 hR
  | 25, _ => advance_ljmpl32 hR
  | 26, _ => advance_movwAx64 hR
  | 27, _ => advance_movwAxDs64 hR
  | 28, _ => advance_movwAxSs hR
  | 29, _ => advance_movqRax hR
  | 30, _ => advance_jmpqRax hR hentry
  | n + 31, hn => absurd hn (by omega)

end Long

theorem size_entry : (A.coreAt entry cache c 31).size = .code64 := by
  unfold Core.size Core.longMode
  rw [show (A.coreAt entry cache c 31).efer = 0x500 from rfl]
  exact if_pos ⟨by decide, rfl⟩

theorem inTrampoline_entry (hentry : InFriend entry) : inTrampoline (A.coreAt entry cache c 31) = false := by
  have hbounds := inFriend_iff.mp hentry
  rw [inTrampoline, size_entry, Segment.linear, if_pos rfl, Option.all_some, ← Bool.not_eq_true,
    Range.covers_iff (by decide), show codePage.base.toNat = 0x70000 from rfl, show codePage.size.toNat = 0x1000 from rfl,
    show (A.coreAt entry cache c 31).rip = entry from rfl]
  omega

end

end Toshokan.Hakase
