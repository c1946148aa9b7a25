import Mathlib.Data.Fintype.Card
import Toshokan.Lib.Bytes
import Toshokan.Lib.Sched
import Toshokan.Memory

/-!
# `friend/boot.S`: a stack for every core

Every core comes to `entry64`, takes `STACK_SIZE` from `stack_offset` with one `lock xaddl` and puts its `%rsp` at what
it found there above `friend_binary_end`.

* `Linked` : where a linked binary ends; `entry64` : the instructions, `step` : the next one of one core;
* `offset k` : what the core finds that comes to the `xaddl` after `k` others; `Inv` : the invariant;
* `stacks_apart` : the `STACK_SIZE` bytes below the `%rsp` of two cores have no byte in common;
* `Image` : a binary of the friend region; `StackFree` : the `STACK_SIZE` bytes below `%rsp` are free friend memory;
* `stack_free_iff` : of which cores this is true; `stack_in_binary` : not of the first.
-/

namespace Toshokan.Friend

def STACK_SIZE : BitVec 32 := 0x4000

/-- `friend_binary_end` of a linked binary, a page boundary. -/
structure Linked where
  binaryEnd : BitVec 64
  aligned : binaryEnd.toNat % 0x1000 = 0

/-- A linked binary of the friend region. -/
structure Image extends Linked where
  start_le : 0x100000000 ≤ binaryEnd.toNat
  le_end : binaryEnd.toNat ≤ 0x140000000

/-- The instructions of `entry64` up to the new `%rsp`. The operand of `xaddl` is `stack_offset`, whose address is
loaded into `%rbx` just before. -/
inductive BootInstr
  | movabsqRcx
  | movlEax
  | lockXaddl
  | cltq
  | addqRcx
  | movqRsp
  deriving DecidableEq, Repr

def entry64 : List BootInstr := [.movabsqRcx, .movlEax, .lockXaddl, .cltq, .addqRcx, .movqRsp]

structure Core where
  rest : List BootInstr
  rax : BitVec 64
  rcx : BitVec 64
  rsp : BitVec 64

namespace Linked

/-- The cores `ι`, `stack_offset`, and who has executed the `xaddl`, in order. -/
structure State (ι : Type) where
  stackOffset : BitVec 32
  core : ι → Core
  order : List ι

variable {ι : Type} (E : Linked)

section Step
variable [DecidableEq ι]

def State.set (st : State ι) (i : ι) (c : Core) : State ι := { st with core := Function.update st.core i c }

def exec (st : State ι) (i : ι) (c : Core) : BootInstr → State ι
  | .movabsqRcx => st.set i { c with rcx := E.binaryEnd }
  | .movlEax => st.set i { c with rax := STACK_SIZE.setWidth 64 }
  | .lockXaddl =>
      { st with stackOffset := st.stackOffset + c.rax.setWidth 32, order := st.order ++ [i] }.set i
        { c with rax := st.stackOffset.setWidth 64 }
  | .cltq => st.set i { c with rax := (c.rax.setWidth 32).signExtend 64 }
  | .addqRcx => st.set i { c with rax := c.rax + c.rcx }
  | .movqRsp => st.set i { c with rsp := c.rax }

/-- One step of core `i`; after `entry64` it runs `friend_init`, which moves neither `stack_offset` nor the stack of a
core. -/
def step (st : State ι) (i : ι) : State ι :=
  match (st.core i).rest with
  | [] => st
  | instr :: rest => E.exec st i { st.core i with rest := rest } instr

end Step

/-- All cores at `entry64`, with whatever the trampoline left in their registers. -/
def init (rax rcx rsp : ι → BitVec 64) : State ι where
  stackOffset := 0x2000
  core i := ⟨entry64, rax i, rcx i, rsp i⟩
  order := []

/-! ## What a core gets -/

/-- What `stack_offset` holds after `k` cores. -/
def offset (k : Nat) : BitVec 32 := BitVec.ofNat 32 (0x2000 + 0x4000 * k)

theorem offset_succ (k : Nat) : offset k + STACK_SIZE = offset (k + 1) := by
  apply BitVec.eq_of_toNat_eq
  rw [offset, offset, BitVec.toNat_add, BitVec.toNat_ofNat, BitVec.toNat_ofNat,
    show STACK_SIZE.toNat = 0x4000 from rfl]
  omega

/-- The `%rsp` made from the offset `o`. -/
def top (o : BitVec 32) : BitVec 64 := o.signExtend 64 + E.binaryEnd

def Before (c : Core) : Prop :=
  c.rest = entry64 ∨ (c.rest = entry64.drop 1 ∧ c.rcx = E.binaryEnd) ∨
    (c.rest = entry64.drop 2 ∧ c.rcx = E.binaryEnd ∧ c.rax = STACK_SIZE.setWidth 64)

def After (o : BitVec 32) (c : Core) : Prop :=
  (c.rest = entry64.drop 3 ∧ c.rcx = E.binaryEnd ∧ c.rax = o.setWidth 64) ∨
  (c.rest = entry64.drop 4 ∧ c.rcx = E.binaryEnd ∧ c.rax = o.signExtend 64) ∨
  (c.rest = entry64.drop 5 ∧ c.rax = E.top o) ∨ (c.rest = [] ∧ c.rsp = E.top o)

/-- Where a core stands, given its place in the order. -/
def Placed (order : List ι) (i : ι) (c : Core) : Prop :=
  (i ∉ order ∧ E.Before c) ∨ ∃ k, order[k]? = some i ∧ E.After (offset k) c

structure Inv (st : State ι) : Prop where
  cell : st.stackOffset = offset st.order.length
  nodup : st.order.Nodup
  placed : ∀ i, E.Placed st.order i (st.core i)

variable {E}

theorem inv_init (rax rcx rsp : ι → BitVec 64) : E.Inv (init rax rcx rsp) :=
  ⟨rfl, List.nodup_nil, fun _ => .inl ⟨List.not_mem_nil, .inl rfl⟩⟩

theorem Inv.rsp_eq {st : State ι} (h : E.Inv st) {i : ι} {k : Nat} (hk : st.order[k]? = some i)
    (hr : (st.core i).rest = []) : (st.core i).rsp = E.top (offset k) := by
  rcases h.placed i with ⟨hn, -⟩ | ⟨k', hk', ha⟩
  · exact absurd (List.mem_of_getElem? hk) hn
  · have hkk : k' = k :=
      (List.getElem?_inj (List.getElem?_eq_some_iff.mp hk').1 h.nodup).mp (hk'.trans hk.symm)
    subst hkk
    rcases ha with ⟨h', -⟩ | ⟨h', -⟩ | ⟨h', -⟩ | ⟨-, ha⟩
    · simp [hr, entry64] at h'
    · simp [hr, entry64] at h'
    · simp [hr, entry64] at h'
    · exact ha

theorem Inv.mem_order {st : State ι} (h : E.Inv st) {i : ι} (hr : (st.core i).rest = []) : i ∈ st.order := by
  rcases h.placed i with ⟨-, hb⟩ | ⟨k, hk, -⟩
  · unfold Before at hb
    rw [hr] at hb
    simp [entry64] at hb
  · exact List.mem_of_getElem? hk

variable [DecidableEq ι]

theorem Inv.set {st : State ι} (h : E.Inv st) {i : ι} {c : Core} (hc : E.Placed st.order i c) : E.Inv (st.set i c) := by
  refine ⟨h.cell, h.nodup, fun j => ?_⟩
  by_cases hj : j = i
  · subst hj
    simpa only [State.set, Function.update_self] using hc
  · simpa only [State.set, Function.update_of_ne hj] using h.placed j

/-- The `xaddl`: core `i` is the next in order. -/
theorem Inv.xaddl {st : State ι} (h : E.Inv st) {i : ι} (hi : i ∉ st.order) {c : Core}
    (hrest : c.rest = entry64.drop 3) (hrcx : c.rcx = E.binaryEnd) (hrax : c.rax = STACK_SIZE.setWidth 64) :
    E.Inv (E.exec st i c .lockXaddl) := by
  refine ⟨?_, ?_, fun j => ?_⟩
  · change st.stackOffset + c.rax.setWidth 32 = offset (st.order ++ [i]).length
    rw [hrax, h.cell, List.length_append, List.length_singleton, ← offset_succ]
    rfl
  · change (st.order ++ [i]).Nodup
    rw [← List.concat_eq_append]
    exact h.nodup.concat hi
  · by_cases hj : j = i
    · subst hj
      refine .inr ⟨st.order.length, ?_, .inl ?_⟩
      · exact List.getElem?_concat_length ..
      · simp only [exec, State.set, Function.update_self]
        exact ⟨hrest, hrcx, by rw [h.cell]⟩
    · simp only [exec, State.set, Function.update_of_ne hj]
      rcases h.placed j with ⟨hn, hb⟩ | ⟨k, hk, ha⟩
      · refine .inl ⟨?_, hb⟩
        rw [List.mem_append, List.mem_singleton]
        tauto
      · refine .inr ⟨k, ?_, ha⟩
        rw [List.getElem?_append_left (List.getElem?_eq_some_iff.mp hk).1]
        exact hk

theorem inv_step (st : State ι) (i : ι) (h : E.Inv st) : E.Inv (E.step st i) := by
  unfold step
  rcases h.placed i with ⟨hn, hr | ⟨hr, hc⟩ | ⟨hr, hc, ha⟩⟩ | ⟨k, hk, ⟨hr, hc, ha⟩ | ⟨hr, hc, ha⟩ | ⟨hr, ha⟩ | ⟨hr, ha⟩⟩
  all_goals rw [hr]
  · exact h.set (.inl ⟨hn, .inr (.inl ⟨rfl, rfl⟩)⟩)
  · exact h.set (.inl ⟨hn, .inr (.inr ⟨rfl, hc, rfl⟩)⟩)
  · exact h.xaddl hn rfl hc ha
  · refine h.set (.inr ⟨k, hk, .inr (.inl ⟨rfl, hc, ?_⟩)⟩)
    change ((st.core i).rax.setWidth 32).signExtend 64 = _
    rw [ha, BitVec.setWidth_setWidth_of_le _ (by decide), BitVec.setWidth_eq]
  · refine h.set (.inr ⟨k, hk, .inr (.inr (.inl ⟨rfl, ?_⟩))⟩)
    change (st.core i).rax + (st.core i).rcx = _
    rw [ha, hc]
    rfl
  · exact h.set (.inr ⟨k, hk, .inr (.inr (.inr ⟨rfl, ha⟩))⟩)
  · exact h

theorem inv_run (rax rcx rsp : ι → BitVec 64) (ts : List ι) : E.Inv (Lib.run E.step (init rax rcx rsp) ts) :=
  Lib.run_induct E.step (inv_init rax rcx rsp) inv_step ts

/-! ## Stacks of different cores -/

def stack (rsp : BitVec 64) : Lib.Range := ⟨rsp - STACK_SIZE.setWidth 64, STACK_SIZE.setWidth 64⟩

/-- The `%rsp` of a core, by the number of cores that executed the `xaddl` before it. -/
theorem Inv.rsp_idxOf {st : State ι} (h : E.Inv st) {i : ι} (hr : (st.core i).rest = []) :
    (st.core i).rsp = E.top (offset (st.order.idxOf i)) := by
  apply h.rsp_eq _ hr
  exact List.getElem?_idxOf (h.mem_order hr)

/-- As long as the offset is a non-negative `int`, sign extension does not change it. -/
theorem top_eq {k : Nat} (hk : 0x2000 + 0x4000 * k < 2 ^ 31) :
    E.top (offset k) = E.binaryEnd + BitVec.ofNat 64 (0x2000 + k * 0x4000) := by
  have hnat : (offset k).toNat = 0x2000 + 0x4000 * k := by
    unfold offset
    rw [BitVec.toNat_ofNat, Nat.mod_eq_of_lt (by omega)]
  unfold top
  rw [BitVec.signExtend_eq_setWidth_of_msb_false, BitVec.add_comm]
  · congr 1
    apply BitVec.eq_of_toNat_eq
    rw [BitVec.toNat_setWidth, hnat, BitVec.toNat_ofNat, Nat.mul_comm]
  · rw [BitVec.msb_eq_false_iff_two_mul_lt, hnat]
    omega

/-- The offset back from the bytes of a stack to `friend_binary_end`, modulo 2^64. -/
theorem covers_stack_iff {b a : BitVec 64} {k : Nat} (hk : 0x2000 + k * 0x4000 < 2 ^ 31) :
    (stack (b + BitVec.ofNat 64 (0x2000 + k * 0x4000))).covers a = true ↔
      (a - b + 0x2000).toNat / 0x4000 = k := by
  unfold stack
  rw [Lib.Range.covers_iff_sub]
  dsimp only
  have hb := b.isLt
  have ha := a.isLt
  rw [BitVec.toNat_sub, BitVec.toNat_sub, BitVec.toNat_add, BitVec.toNat_add, BitVec.toNat_sub, BitVec.toNat_ofNat,
    show (STACK_SIZE.setWidth 64).toNat = 0x4000 from rfl, show (0x2000 : BitVec 64).toNat = 0x2000 from rfl]
  omega

theorem Inv.idxOf_lt {n : Nat} {st : State (Fin n)} (h : E.Inv st) {i : Fin n} (hr : (st.core i).rest = []) :
    st.order.idxOf i < n := by
  have hlt : st.order.idxOf i < st.order.length := List.idxOf_lt_length_of_mem (h.mem_order hr)
  have hle := h.nodup.length_le_card
  rw [Fintype.card_fin] at hle
  omega

theorem Inv.rsp_value {n : Nat} {st : State (Fin n)} (h : E.Inv st) (hn : 0x2000 + n * STACK_SIZE.toNat < 2 ^ 31)
    {i : Fin n} (hr : (st.core i).rest = []) :
    0x2000 + st.order.idxOf i * 0x4000 < 2 ^ 31 ∧
      (st.core i).rsp = E.binaryEnd + BitVec.ofNat 64 (0x2000 + st.order.idxOf i * 0x4000) := by
  have hmul : st.order.idxOf i * 0x4000 ≤ n * 0x4000 := Nat.mul_le_mul_right _ (h.idxOf_lt hr).le
  have hk : 0x2000 + st.order.idxOf i * 0x4000 < 2 ^ 31 := lt_of_le_of_lt (Nat.add_le_add_left hmul _) hn
  rw [h.rsp_idxOf hr]
  exact ⟨hk, top_eq (by rwa [Nat.mul_comm])⟩

/-- The alignment of such an address, and that it is above `friend_binary_end` unless the sum wraps around. -/
theorem above (E : Linked) {k : Nat} (hk : 0x2000 + k * 0x4000 < 2 ^ 31) :
    (E.binaryEnd + BitVec.ofNat 64 (0x2000 + k * 0x4000)).toNat % 16 = 0 ∧
    (E.binaryEnd.toNat + (0x2000 + k * 0x4000) < 2 ^ 64 →
      (E.binaryEnd + BitVec.ofNat 64 (0x2000 + k * 0x4000)).toNat = E.binaryEnd.toNat + (0x2000 + k * 0x4000) ∧
      E.binaryEnd < E.binaryEnd + BitVec.ofNat 64 (0x2000 + k * 0x4000)) := by
  have hal := E.aligned
  rw [BitVec.lt_def, BitVec.toNat_add, BitVec.toNat_ofNat]
  omega

/-- **Stacks of different cores are apart.** As long as the offsets of `n` cores are non-negative `int`s, a core that
executed the `xaddl` after `k` others has its `%rsp` at `friend_binary_end + 0x2000 + k * STACK_SIZE`, on a 16-byte
boundary and above `friend_binary_end`, and shares none of the `STACK_SIZE` bytes below it with another core. -/
theorem stacks_apart (E : Linked) (n : Nat) (hn : 0x2000 + n * STACK_SIZE.toNat < 2 ^ 31)
    (rax rcx rsp : Fin n → BitVec 64) (ts : List (Fin n)) :
    let st := Lib.run E.step (init rax rcx rsp) ts
    ∀ i, (st.core i).rest = [] →
      (i ∈ st.order ∧ (st.core i).rsp = E.binaryEnd + BitVec.ofNat 64 (0x2000 + st.order.idxOf i * 0x4000)) ∧
      (st.core i).rsp.toNat % 16 = 0 ∧
      (E.binaryEnd.toNat + (0x2000 + st.order.idxOf i * 0x4000) < 2 ^ 64 →
        (st.core i).rsp.toNat = E.binaryEnd.toNat + (0x2000 + st.order.idxOf i * 0x4000) ∧
        E.binaryEnd < (st.core i).rsp) ∧
      ∀ j, j ≠ i → (st.core j).rest = [] →
        ∀ a, (stack (st.core i).rsp).covers a = true → (stack (st.core j).rsp).covers a = false := by
  intro st i hi
  have hinv : E.Inv st := inv_run rax rcx rsp ts
  obtain ⟨hki, hvi⟩ := hinv.rsp_value hn hi
  obtain ⟨hal, habove⟩ := E.above hki
  refine ⟨⟨hinv.mem_order hi, hvi⟩, by rw [hvi]; exact hal, by rw [hvi]; exact habove, fun j hj hr a ha => ?_⟩
  · obtain ⟨hkj, hvj⟩ := hinv.rsp_value hn hr
    rw [hvi, covers_stack_iff hki] at ha
    rw [← Bool.not_eq_true, hvj, covers_stack_iff hkj, ha]
    intro he
    exact hj ((List.idxOf_inj (hinv.mem_order hi)).mp he).symm

/-- Two cores above a binary of 64 KiB, the second one first at the `xaddl`. -/
theorem stacks_apart_two :
    let E : Linked := ⟨0x100010000, by decide⟩
    let z : Fin 2 → BitVec 64 := fun _ => 0
    let st := Lib.run E.step (init z z z) (List.replicate 6 1 ++ List.replicate 6 0)
    (st.core 0).rest = [] ∧ (st.core 1).rest = [] ∧ (st.core 0).rsp = 0x100016000 ∧
      ∀ a, (stack (st.core 0).rsp).covers a = true → (stack (st.core 1).rsp).covers a = false := by
  intro E z st
  have h0 : (st.core 0).rest = [] := by decide
  have h1 : (st.core 1).rest = [] := by decide
  obtain ⟨⟨-, hrsp⟩, -, -, hapart⟩ :=
    stacks_apart E 2 (by decide) z z z (List.replicate 6 1 ++ List.replicate 6 0) 0 h0
  have hplace : st.order.idxOf 0 = 1 := by decide
  refine ⟨h0, h1, ?_, hapart 1 (by decide) h1⟩
  rw [hrsp, hplace]
  decide

end Linked

namespace Image
open Linked (State init offset top inv_run)

variable {ι : Type} [DecidableEq ι] (E : Image)

/-- The `STACK_SIZE` bytes below `rsp` lie in `[friend_binary_end, DEPLOY_PHYS_ADDR_END)`. -/
def StackFree (rsp : BitVec 64) : Prop :=
  ∀ d : Nat, 1 ≤ d → d ≤ STACK_SIZE.toNat →
    E.binaryEnd ≤ rsp - BitVec.ofNat 64 d ∧ rsp - BitVec.ofNat 64 d < DEPLOY_PHYS_ADDR_END

variable {E}

/-! ## Where it lies -/

theorem toNat_top (o : BitVec 32) : ((E.top o).toNat : Int) = E.binaryEnd.toNat + o.toInt := by
  have h1 := E.start_le
  have h2 := E.le_end
  have h3 := BitVec.toInt_lt (x := o)
  have h4 := BitVec.le_toInt (x := o)
  rw [top, BitVec.toNat_add, BitVec.signExtend, BitVec.toNat_ofInt]
  omega

theorem stackFree_iff {rsp : BitVec 64} :
    E.StackFree rsp ↔ E.binaryEnd.toNat + 0x4000 ≤ rsp.toNat ∧ rsp.toNat ≤ 0x140000000 := by
  have h1 := E.start_le
  have h2 := E.le_end
  have hlt := rsp.isLt
  have hsub : ∀ d, d ≤ 0x4000 → (rsp - BitVec.ofNat 64 d).toNat = (2 ^ 64 - d + rsp.toNat) % 2 ^ 64 := by
    intro d hd
    rw [BitVec.toNat_sub, BitVec.toNat_ofNat, Nat.mod_eq_of_lt (show d < 2 ^ 64 by omega)]
  constructor
  · intro h
    obtain ⟨hlo, hhi⟩ := h 0x4000 (by decide) (by decide)
    obtain ⟨-, hhi'⟩ := h 1 (by decide) (by decide)
    rw [BitVec.le_def, hsub _ (by decide)] at hlo
    rw [BitVec.lt_def, toNat_end, hsub _ (by decide)] at hhi hhi'
    omega
  · intro h d hd1 hd2
    have hd2' : d ≤ 0x4000 := hd2
    rw [BitVec.le_def, BitVec.lt_def, toNat_end, hsub d hd2']
    omega

/-- **Which cores get a stack in free friend memory.** In every run, a core that executed the `xaddl` after `k` others
has the `STACK_SIZE` bytes below its `%rsp` inside `[friend_binary_end, DEPLOY_PHYS_ADDR_END)` iff the offset it found
is at least `STACK_SIZE`, as an `int`, and keeps `friend_binary_end` below the end of the region. -/
theorem stack_free_iff (E : Image) (rax rcx rsp : ι → BitVec 64) (ts : List ι) (i : ι) (k : Nat)
    (hk : (Lib.run E.step (init rax rcx rsp) ts).order[k]? = some i)
    (hr : ((Lib.run E.step (init rax rcx rsp) ts).core i).rest = []) :
    E.StackFree ((Lib.run E.step (init rax rcx rsp) ts).core i).rsp ↔
      0x4000 ≤ (offset k).toInt ∧ E.binaryEnd.toNat + (offset k).toInt ≤ 0x140000000 := by
  have htop := toNat_top (E := E) (offset k)
  rw [(inv_run rax rcx rsp ts).rsp_eq hk hr, stackFree_iff]
  omega

/-- The second of two cores, with a binary of 64 KiB. -/
theorem stack_free_second :
    let E : Image := ⟨⟨0x100010000, by decide⟩, by decide, by decide⟩
    let z : Fin 2 → BitVec 64 := fun _ => 0
    E.StackFree ((Lib.run E.step (init z z z) (List.replicate 6 0 ++ List.replicate 6 1)).core 1).rsp := by
  intro E z
  exact (stack_free_iff E z z z (List.replicate 6 0 ++ List.replicate 6 1) 1 1 (by decide) (by decide)).mpr (by decide)

/-- The first core of the same binary has its stack across `friend_binary_end`: the loaded bytes below it are part of
the stack. -/
theorem stack_in_binary :
    let E : Image := ⟨⟨0x100010000, by decide⟩, by decide, by decide⟩
    let z : Fin 2 → BitVec 64 := fun _ => 0
    let st := Lib.run E.step (init z z z) (List.replicate 6 0)
    (st.core 0).rsp = 0x100012000 ∧ (st.core 0).rsp - 0x4000 < E.binaryEnd ∧ ¬ E.StackFree (st.core 0).rsp := by
  intro E z st
  refine ⟨by decide, by decide, fun h => ?_⟩
  obtain ⟨hlo, -⟩ := h 0x4000 (by decide) (by decide)
  exact absurd hlo (by decide)

end Image
end Toshokan.Friend
