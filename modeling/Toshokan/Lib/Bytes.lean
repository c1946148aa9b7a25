import Mathlib.Data.BitVec
import Mathlib.Data.List.Basic

/-!
# Bytes at 64-bit addresses

* `Bytes` : a memory; `Range` : `size` bytes from `base` on; `Range.covers` : modulo 2^64, `Range.Contains` : exactly;
  `Range.Apart` : no byte in common;
* `Bytes.copy` : `memcpy` and `memset`; `foldl_copy` : after several, a byte is what the last one that covers it gave;
* `read16`, `read32`, `read64` : little-endian reads; `Agree` : equal bytes, which give equal reads;
* `write64`, and what `read64` finds after it: at the same address (`read64_write64_self`), at another aligned one
  (`read64_write64_of_ne`), after several (`read64_foldl_of_mem`, `read64_foldl_of_not_mem`);
* `Frame` : nothing has changed outside some ranges.
-/

namespace Toshokan.Lib

abbrev Bytes := BitVec 64 → BitVec 8

theorem toNat_eight : (8 : BitVec 64).toNat = 8 := rfl

structure Range where
  base : BitVec 64
  size : BitVec 64
  deriving DecidableEq, Repr

namespace Range

/-- `a` is one of the bytes `base`, `base + 1`, …, taken modulo 2^64. -/
def covers (r : Range) (a : BitVec 64) : Bool := a - r.base < r.size

def Overflows (r : Range) : Prop := 2 ^ 64 ≤ r.base.toNat + r.size.toNat

instance (r : Range) : Decidable r.Overflows := inferInstanceAs (Decidable (_ ≤ _))

theorem covers_iff_sub {r : Range} {a : BitVec 64} : r.covers a = true ↔ (a - r.base).toNat < r.size.toNat := by
  rw [covers, decide_eq_true_eq, BitVec.lt_def]

/-- The range has `a`, its end taken exactly. -/
def Contains (r : Range) (a : BitVec 64) : Prop := r.base.toNat ≤ a.toNat ∧ a.toNat < r.base.toNat + r.size.toNat

instance (r : Range) (a : BitVec 64) : Decidable (r.Contains a) := inferInstanceAs (Decidable (_ ∧ _))

theorem covers_iff {r : Range} (h : r.base.toNat + r.size.toNat ≤ 2 ^ 64) {a : BitVec 64} :
    r.covers a = true ↔ r.base.toNat ≤ a.toNat ∧ a.toNat < r.base.toNat + r.size.toNat := by
  have ha := a.isLt
  have hb := r.base.isLt
  rw [covers_iff_sub, BitVec.toNat_sub]
  omega

theorem covers_iff_contains {r : Range} (h : ¬ r.Overflows) {a : BitVec 64} : r.covers a = true ↔ r.Contains a := by
  unfold Overflows at h
  exact covers_iff (by omega)

theorem covers_base_add {r : Range} {k : BitVec 64} (hk : k < r.size) : r.covers (r.base + k) = true := by
  rw [covers, BitVec.add_comm, BitVec.add_sub_cancel]
  exact decide_eq_true hk

theorem covers_add {r : Range} {k : Nat} (hk : k < r.size.toNat) : r.covers (r.base + BitVec.ofNat 64 k) = true := by
  have hs := r.size.isLt
  apply covers_base_add
  rw [BitVec.lt_def, BitVec.toNat_ofNat, Nat.mod_eq_of_lt (by omega)]
  exact hk

/-- A range that ends beyond the last address covers that address. -/
theorem covers_last_of_overflows {r : Range} (h : r.Overflows) : r.covers (BitVec.allOnes 64) = true := by
  have hb := r.base.isLt
  unfold Overflows at h
  rw [covers_iff_sub, BitVec.toNat_sub, BitVec.toNat_allOnes]
  omega

def Apart (r r' : Range) : Prop := ∀ a, r.covers a = true → r'.covers a = false

theorem Apart.symm {r r' : Range} (h : r.Apart r') : r'.Apart r := by
  intro a ha
  by_contra hr
  rw [Bool.not_eq_false] at hr
  rw [h a hr] at ha
  cases ha

theorem apart_of_sub {r r' : Range} (h : r.size.toNat ≤ (r'.base - r.base).toNat)
    (h' : r'.size.toNat ≤ (r.base - r'.base).toNat) : r.Apart r' := by
  intro a ha
  rw [← Bool.not_eq_true, covers_iff_sub]
  rw [covers_iff_sub] at ha
  rw [BitVec.toNat_sub] at *
  omega

theorem apart_of_le {r r' : Range} (hr : r.base.toNat + r.size.toNat ≤ 2 ^ 64)
    (hr' : r'.base.toNat + r'.size.toNat ≤ 2 ^ 64)
    (h : r.base.toNat + r.size.toNat ≤ r'.base.toNat ∨ r'.base.toNat + r'.size.toNat ≤ r.base.toNat) : r.Apart r' := by
  intro a ha
  rw [covers_iff hr] at ha
  rw [← Bool.not_eq_true, covers_iff hr']
  omega

theorem Apart.mono {r r' s : Range} (h : r.Apart s) (hr : ∀ a, r'.covers a = true → r.covers a = true) : r'.Apart s :=
  fun a ha => h a (hr a ha)

end Range

namespace Bytes

/-- The range gets the bytes `src 0`, `src 1`, …. -/
def copy (m : Bytes) (dst : Range) (src : BitVec 64 → BitVec 8) : Bytes :=
  fun a => if dst.covers a = true then src (a - dst.base) else m a

theorem copy_of_covers (m : Bytes) {dst : Range} (src : BitVec 64 → BitVec 8) {a : BitVec 64}
    (h : dst.covers a = true) : m.copy dst src a = src (a - dst.base) := if_pos h

theorem copy_of_not_covers (m : Bytes) {dst : Range} (src : BitVec 64 → BitVec 8) {a : BitVec 64}
    (h : dst.covers a = false) : m.copy dst src a = m a := if_neg (by rw [h]; exact Bool.false_ne_true)

theorem copy_zero (m : Bytes) (a : BitVec 64) (src : BitVec 64 → BitVec 8) : m.copy ⟨a, 0⟩ src = m := by
  funext b
  refine copy_of_not_covers _ _ ?_
  rw [← Bool.not_eq_true, Range.covers_iff_sub]
  exact Nat.not_lt_zero _

theorem copy_succ (m : Bytes) (a : BitVec 64) (src : BitVec 64 → BitVec 8) {n : Nat} (hn : n + 1 < 2 ^ 64) :
    m.copy ⟨a, BitVec.ofNat 64 (n + 1)⟩ src =
      Function.update (m.copy ⟨a, BitVec.ofNat 64 n⟩ src) (a + BitVec.ofNat 64 n) (src (BitVec.ofNat 64 n)) := by
  have hlen : (BitVec.ofNat 64 (n + 1)).toNat = n + 1 := by rw [BitVec.toNat_ofNat, Nat.mod_eq_of_lt hn]
  have hlen' : (BitVec.ofNat 64 n).toNat = n := by rw [BitVec.toNat_ofNat, Nat.mod_eq_of_lt (by omega)]
  funext b
  by_cases hb : b = a + BitVec.ofNat 64 n
  · have hsub : b - a = BitVec.ofNat 64 n := by rw [hb, BitVec.add_comm, BitVec.add_sub_cancel]
    rw [hb, Function.update_self, ← hb, copy_of_covers _ _ (by rw [Range.covers_iff_sub, hsub, hlen, hlen']; omega),
      hsub]
  · have hne : (b - a).toNat ≠ n := by
      intro he
      refine hb ?_
      rw [← he, BitVec.ofNat_toNat, BitVec.setWidth_eq, BitVec.add_comm, BitVec.sub_add_cancel]
    have hiff : (Range.mk a (BitVec.ofNat 64 (n + 1))).covers b = (Range.mk a (BitVec.ofNat 64 n)).covers b := by
      rw [Bool.eq_iff_iff, Range.covers_iff_sub, Range.covers_iff_sub, hlen, hlen']
      dsimp only
      omega
    rw [Function.update_of_ne hb, copy, copy, hiff]

/-- **The last writer wins.** -/
theorem foldl_copy {β : Type*} (dst : β → Range) (src : β → BitVec 64 → BitVec 8) (xs : List β) (m : Bytes)
    (a : BitVec 64) :
    xs.foldl (fun m x => m.copy (dst x) (src x)) m a =
      ((xs.reverse.find? fun x => (dst x).covers a).map fun x => src x (a - (dst x).base)).getD (m a) := by
  induction xs using List.reverseRecOn with
  | nil => rfl
  | append_singleton xs x ih =>
      rw [List.foldl_append, List.foldl_cons, List.foldl_nil, List.reverse_append, List.reverse_singleton,
        List.singleton_append, List.find?_cons]
      cases hc : (dst x).covers a with
      | true => rw [copy_of_covers _ _ hc]; rfl
      | false => rw [copy_of_not_covers _ _ hc, ih]

def read16 (m : Bytes) (a : BitVec 64) : BitVec 16 := m (a + 1) ++ m a

def read32 (m : Bytes) (a : BitVec 64) : BitVec 32 := m (a + 3) ++ m (a + 2) ++ m (a + 1) ++ m a

def read64 (m : Bytes) (a : BitVec 64) : BitVec 64 :=
  m (a + 7) ++ m (a + 6) ++ m (a + 5) ++ m (a + 4) ++ m (a + 3) ++ m (a + 2) ++ m (a + 1) ++ m a

def byte (v : BitVec 64) (k : BitVec 64) : BitVec 8 := v.extractLsb' (8 * k.toNat) 8

def write64 (m : Bytes) (a v : BitVec 64) : Bytes := m.copy ⟨a, 8⟩ (byte v)

theorem append_bytes (v : BitVec 64) :
    (byte v 7 ++ byte v 6 ++ byte v 5 ++ byte v 4 ++ byte v 3 ++ byte v 2 ++ byte v 1 ++ byte v 0 : BitVec 64) = v := by
  apply BitVec.eq_of_getLsbD_eq
  intro i hi
  simp only [byte, BitVec.getLsbD_append, BitVec.getLsbD_extractLsb']
  grind

/-- The `n` bytes of `m` at `a` are those of `m'` at `b`. -/
def Agree (m m' : Bytes) (a b : BitVec 64) (n : Nat) : Prop := ∀ k : BitVec 64, k.toNat < n → m (a + k) = m' (b + k)

namespace Agree
variable {m m' : Bytes} {a b : BitVec 64} {n : Nat}

theorem of_nat (h : ∀ k < n, m (a + BitVec.ofNat 64 k) = m' (b + BitVec.ofNat 64 k)) : Agree m m' a b n := by
  intro k hk
  have := h k.toNat hk
  rw [BitVec.ofNat_toNat, BitVec.setWidth_eq] at this
  exact this

theorem mono (h : Agree m m' a b n) {l : Nat} (hl : l ≤ n) : Agree m m' a b l := fun k hk => h k (lt_of_lt_of_le hk hl)

theorem shift (h : Agree m m' a b n) (o : BitVec 64) {l : Nat} (hl : o.toNat + l ≤ n) : Agree m m' (a + o) (b + o) l := by
  intro k hk
  rw [BitVec.add_assoc, BitVec.add_assoc]
  apply h
  rw [BitVec.toNat_add]
  exact lt_of_le_of_lt (Nat.mod_le _ _) (by omega)

theorem from_zero (h : Agree m m' 0 0 n) (o : BitVec 64) {l : Nat} (hl : o.toNat + l ≤ n) : Agree m m' o o l := by
  have := h.shift o hl
  rw [show (0 : BitVec 64) + o = o from BitVec.zero_add o] at this
  exact this

theorem first (h : Agree m m' a b n) (hn : 0 < n) : m a = m' b := by
  have h0 := h 0 hn
  rw [show a + 0 = a from BitVec.add_zero a, show b + 0 = b from BitVec.add_zero b] at h0
  exact h0

theorem read16 (h : Agree m m' a b 2) : m.read16 a = m'.read16 b := by
  unfold Bytes.read16
  rw [h 1 (by decide), h.first (by decide)]

theorem read32 (h : Agree m m' a b 4) : m.read32 a = m'.read32 b := by
  unfold Bytes.read32
  rw [h 3 (by decide), h 2 (by decide), h 1 (by decide), h.first (by decide)]

theorem read64 (h : Agree m m' a b 8) : m.read64 a = m'.read64 b := by
  unfold Bytes.read64
  rw [h 7 (by decide), h 6 (by decide), h 5 (by decide), h 4 (by decide), h 3 (by decide), h 2 (by decide),
    h 1 (by decide), h.first (by decide)]

end Agree

theorem setWidth_read64 (m : Bytes) (a : BitVec 64) : (m.read64 a).setWidth 32 = m.read32 a := by
  apply BitVec.eq_of_getLsbD_eq
  intro i hi
  simp only [read64, read32, BitVec.getLsbD_setWidth, BitVec.getLsbD_append, hi, decide_true, Bool.true_and]
  grind

theorem read64_congr {m m' : Bytes} {a : BitVec 64} (h : ∀ k : BitVec 64, k < 8 → m (a + k) = m' (a + k)) :
    m.read64 a = m'.read64 a :=
  Agree.read64 h

theorem read64_zero (a : BitVec 64) : read64 (fun _ => 0) a = 0 := by
  simp only [read64]
  decide

theorem read64_write64_self (m : Bytes) (a v : BitVec 64) : (m.write64 a v).read64 a = v := by
  have hk : ∀ k : BitVec 64, k < 8 → m.write64 a v (a + k) = byte v k := by
    intro k hk
    have hc : (Range.mk a 8).covers (a + k) = true := Range.covers_base_add hk
    rw [write64, copy_of_covers _ _ hc, BitVec.add_comm, BitVec.add_sub_cancel]
  have h0 := hk 0 (by decide)
  rw [show a + 0 = a from BitVec.add_zero a] at h0
  unfold read64
  rw [hk 7 (by decide), hk 6 (by decide), hk 5 (by decide), hk 4 (by decide), hk 3 (by decide), hk 2 (by decide),
    hk 1 (by decide), h0]
  exact append_bytes v

theorem read64_copy_of_apart (m : Bytes) {dst : Range} (src : BitVec 64 → BitVec 8) {a : BitVec 64}
    (h : dst.Apart ⟨a, 8⟩) : (m.copy dst src).read64 a = m.read64 a :=
  read64_congr fun _ hk => copy_of_not_covers m src (h.symm _ (Range.covers_base_add hk))

theorem read64_copy_apart (m : Bytes) {dst : Range} (src : BitVec 64 → BitVec 8) {a : BitVec 64}
    (ha : a.toNat + 8 ≤ 2 ^ 64)
    (h : a.toNat + 8 ≤ dst.base.toNat ∧ dst.base.toNat + dst.size.toNat ≤ 2 ^ 64 ∨
      dst.base.toNat + dst.size.toNat ≤ a.toNat) :
    (m.copy dst src).read64 a = m.read64 a := by
  apply read64_copy_of_apart
  apply Range.apart_of_le (by omega) ha
  rw [toNat_eight]
  dsimp only
  omega

theorem read64_write64_of_apart (m : Bytes) {a b : BitVec 64} (v : BitVec 64) (h : Range.Apart ⟨a, 8⟩ ⟨b, 8⟩) :
    (m.write64 a v).read64 b = m.read64 b := read64_copy_of_apart m _ h

theorem read64_write64_apart (m : Bytes) {a b : BitVec 64} (v : BitVec 64) (ha : a.toNat + 8 ≤ 2 ^ 64)
    (hb : b.toNat + 8 ≤ 2 ^ 64) (h : a.toNat + 8 ≤ b.toNat ∨ b.toNat + 8 ≤ a.toNat) :
    (m.write64 a v).read64 b = m.read64 b := read64_write64_of_apart m v (Range.apart_of_le ha hb h)

theorem read64_write64_of_ne (m : Bytes) {a b : BitVec 64} (v : BitVec 64) (ha : a.toNat % 8 = 0)
    (hb : b.toNat % 8 = 0) (hab : a ≠ b) : (m.write64 a v).read64 b = m.read64 b := by
  have hne : a.toNat ≠ b.toNat := fun h => hab (BitVec.eq_of_toNat_eq h)
  have ha' := a.isLt
  have hb' := b.isLt
  exact read64_write64_apart m v (by omega) (by omega) (by omega)

theorem read64_foldl_of_not_mem {ws : List (BitVec 64 × BitVec 64)} {b : BitVec 64} (m : Bytes)
    (ha : ∀ w ∈ ws, w.1.toNat % 8 = 0) (hb : b.toNat % 8 = 0) (hne : ∀ w ∈ ws, w.1 ≠ b) :
    (ws.foldl (fun m w => m.write64 w.1 w.2) m).read64 b = m.read64 b := by
  induction ws generalizing m with
  | nil => rfl
  | cons w ws ih =>
      rw [List.foldl_cons, ih _ (fun w hw => ha w (List.mem_cons_of_mem _ hw))
        (fun w hw => hne w (List.mem_cons_of_mem _ hw))]
      exact read64_write64_of_ne m w.2 (ha w List.mem_cons_self) hb (hne w List.mem_cons_self)

theorem read64_foldl_of_mem {ws : List (BitVec 64 × BitVec 64)} {w : BitVec 64 × BitVec 64} (m : Bytes)
    (ha : ∀ w ∈ ws, w.1.toNat % 8 = 0) (hnd : (ws.map Prod.fst).Nodup) (hw : w ∈ ws) :
    (ws.foldl (fun m w => m.write64 w.1 w.2) m).read64 w.1 = w.2 := by
  induction ws generalizing m with
  | nil => cases hw
  | cons x ws ih =>
      rw [List.map_cons, List.nodup_cons] at hnd
      have ha' : ∀ w ∈ ws, w.1.toNat % 8 = 0 := fun w hw => ha w (List.mem_cons_of_mem _ hw)
      rw [List.foldl_cons]
      rcases List.mem_cons.mp hw with rfl | hw
      · rw [read64_foldl_of_not_mem _ ha' (ha w List.mem_cons_self), read64_write64_self]
        intro x hx he
        exact hnd.1 (he ▸ List.mem_map_of_mem hx)
      · exact ih _ ha' hnd.2 hw

/-- Outside the ranges, the bytes of `m'` are those of `m`. -/
def Frame (rs : List Range) (m m' : Bytes) : Prop := ∀ a, (∀ r ∈ rs, r.covers a = false) → m' a = m a

namespace Frame

theorem refl (rs : List Range) (m : Bytes) : Frame rs m m := fun _ _ => rfl

theorem trans {rs : List Range} {m₁ m₂ m₃ : Bytes} (h : Frame rs m₁ m₂) (h' : Frame rs m₂ m₃) : Frame rs m₁ m₃ :=
  fun a ha => (h' a ha).trans (h a ha)

theorem mono {rs rs' : List Range} {m m' : Bytes} (h : Frame rs m m') (hrs : rs ⊆ rs') : Frame rs' m m' :=
  fun a ha => h a fun r hr => ha r (hrs hr)

theorem write64 {rs : List Range} (m : Bytes) {a : BitVec 64} (v : BitVec 64) (h : ⟨a, 8⟩ ∈ rs) :
    Frame rs m (m.write64 a v) :=
  fun _ hb => copy_of_not_covers _ _ (hb _ h)

theorem read64 {rs : List Range} {m m' : Bytes} (h : Frame rs m m') {a : BitVec 64} (ha : ∀ r ∈ rs, r.Apart ⟨a, 8⟩) :
    m'.read64 a = m.read64 a :=
  read64_congr fun _ hk => h _ fun r hr => (ha r hr).symm _ (Range.covers_base_add hk)

end Frame

end Bytes

end Toshokan.Lib
