import Toshokan.Lib.Bytes

/-!
# The x86-64 four-level walk

`Mmu.walk` translates a 48-bit linear address through the tables at `root`, with pages of 4KB, 2MB and 1GB. An entry
ends the walk if it is not present or has a reserved bit set; the no-execute bit is reserved (`IA32_EFER.NXE` is 0). The
accessed and dirty flags, which a processor sets in the entries it uses, are not set by `walk`: it does not depend on
them (`walk_unflag`), and whoever has a memory with tables in it lets them change.

* `bare` : an entry without these flags, `unflag` : a memory without them;
* `Link`, `Huge` : entries that point to a table and to a 2MB page, present, writable and for user mode; `Small` : those
  for a 4KB page;
  `link_or`, `huge_or` : flags added to an aligned address;
* `walk_link`, `walkPdpt_link`, `walkPd_huge`, `walkPd_link` : the steps of a walk through such entries;
* `walkPdpt_none`, `walkPd_none` : a zero entry ends it.
-/

namespace Toshokan.Lib

/-- Bits `lo` to `lo + n - 1` of an entry. -/
def field (e : BitVec 64) (lo n : Nat) : Nat := e.toNat / 2 ^ lo % 2 ^ n

/-- The nine bits of `v` from `lo` on. -/
def index (v : BitVec 48) (lo : Nat) : Nat := v.toNat / 2 ^ lo % 512

theorem index_lt (v : BitVec 48) (lo : Nat) : index v lo < 512 := Nat.mod_lt _ (by decide)

/-- The table an entry points to. -/
def frame (e : BitVec 64) : BitVec 64 := BitVec.ofNat 64 (field e 12 40 * 2 ^ 12)

/-- A processor: the width of its physical addresses, and whether it has 1GB pages. -/
structure Mmu where
  physBits : Nat
  physBits_ge : 33 ≤ physBits
  physBits_le : physBits ≤ 52
  gbPages : Bool

/-- The physical address, and whether every entry of the walk allows writes and user accesses. -/
structure Translation where
  phys : BitVec 64
  writable : Bool
  user : Bool
  deriving DecidableEq, Repr

/-- The translation by the entries `es`, the last of which maps a page at `base`. -/
def leaf (es : List (BitVec 64)) (base offset : Nat) : Translation where
  phys := BitVec.ofNat 64 (base + offset)
  writable := es.all fun e => field e 1 1 == 1
  user := es.all fun e => field e 2 1 == 1

theorem frame_aligned (e : BitVec 64) : (frame e).toNat % 2 ^ 12 = 0 := by
  rw [frame, field, BitVec.toNat_ofNat]
  omega

/-! ## Accessed and dirty flags -/

/-- An entry without its accessed and dirty flags, bits 5 and 6. -/
def bare (e : BitVec 64) : BitVec 64 := e &&& ~~~0x60

/-- Memory without them: bits 5 and 6 of all its aligned doublewords are clear. -/
def Bytes.unflag (m : Bytes) : Bytes := fun a => if a.toNat % 8 = 0 then m a &&& 0x9f else m a

theorem getLsbD_bare (e : BitVec 64) (i : Nat) : (bare e).getLsbD i = (e.getLsbD i && !decide (i = 5 ∨ i = 6)) := by
  have hflags : (0x60 : BitVec 64).getLsbD i = decide (i = 5 ∨ i = 6) := by
    rw [show (0x60 : BitVec 64) = BitVec.twoPow 64 5 ||| BitVec.twoPow 64 6 from rfl, BitVec.getLsbD_or,
      BitVec.getLsbD_twoPow, BitVec.getLsbD_twoPow]
    grind
  rw [bare, BitVec.getLsbD_and, BitVec.getLsbD_not, hflags]
  by_cases hi : i < 64
  · simp [hi]
  · simp [BitVec.getLsbD_of_ge e i (by omega)]

theorem bare_div (e : BitVec 64) : (bare e).toNat / 2 ^ 7 = e.toNat / 2 ^ 7 := by
  apply Nat.eq_of_testBit_eq
  intro i
  rw [Nat.testBit_div_two_pow, Nat.testBit_div_two_pow, BitVec.testBit_toNat, BitVec.testBit_toNat, getLsbD_bare]
  simp

theorem bare_mod (e : BitVec 64) : (bare e).toNat % 2 ^ 7 = e.toNat % 2 ^ 5 := by
  apply Nat.eq_of_testBit_eq
  intro i
  rw [Nat.testBit_mod_two_pow, Nat.testBit_mod_two_pow, BitVec.testBit_toNat, BitVec.testBit_toNat, getLsbD_bare]
  by_cases hi : i < 5
  · simp [show i < 7 by omega, hi, show ¬ (i = 5 ∨ i = 6) by omega]
  · by_cases hi' : i < 7
    · simp [hi, show i = 5 ∨ i = 6 by omega]
    · simp [hi, hi']

theorem bare_eq {e : BitVec 64} (h : e.toNat % 2 ^ 7 < 2 ^ 5) : bare e = e := by
  have hdiv := bare_div e
  have hmod := bare_mod e
  apply BitVec.eq_of_toNat_eq
  omega

theorem field_bare_high (e : BitVec 64) {lo n : Nat} (h : 7 ≤ lo) : field (bare e) lo n = field e lo n := by
  unfold field
  rw [← Nat.add_sub_cancel' h, pow_add, ← Nat.div_div_eq_div_mul, ← Nat.div_div_eq_div_mul, bare_div]

theorem field_bare_low (e : BitVec 64) {lo : Nat} (h : lo < 3) : field (bare e) lo 1 = field e lo 1 := by
  have hdiv := bare_div e
  have hmod := bare_mod e
  unfold field
  rcases (show lo = 0 ∨ lo = 1 ∨ lo = 2 by omega) with rfl | rfl | rfl <;> omega

theorem frame_bare (e : BitVec 64) : frame (bare e) = frame e := by
  rw [frame, frame, field_bare_high e (by decide)]

theorem leaf_bare (es : List (BitVec 64)) (base offset : Nat) : leaf (es.map bare) base offset = leaf es base offset := by
  simp [leaf, List.all_map, Function.comp_def, field_bare_low]

theorem unflag_congr {m m' : Bytes} {a : BitVec 64} (h : m' a = m a) : m'.unflag a = m.unflag a := by
  rw [Bytes.unflag, Bytes.unflag, h]

theorem read64_unflag (m : Bytes) {a : BitVec 64} (ha : a.toNat % 8 = 0) : m.unflag.read64 a = bare (m.read64 a) := by
  have hrest : ∀ k : BitVec 64, 0 < k.toNat → k.toNat < 8 → m.unflag (a + k) = m (a + k) := by
    intro k hk hk'
    refine if_neg ?_
    rw [BitVec.toNat_add]
    omega
  have hlow : m.unflag a = m a &&& 0x9f := if_pos ha
  unfold Bytes.read64
  rw [hrest 7 (by decide) (by decide), hrest 6 (by decide) (by decide), hrest 5 (by decide) (by decide),
    hrest 4 (by decide) (by decide), hrest 3 (by decide) (by decide), hrest 2 (by decide) (by decide),
    hrest 1 (by decide) (by decide), hlow]
  apply BitVec.eq_of_getLsbD_eq
  intro i hi
  have hmask : ∀ j < 8, (0x9f : BitVec 8).getLsbD j = !decide (j = 5 ∨ j = 6) := by decide
  simp only [getLsbD_bare, BitVec.getLsbD_append, BitVec.getLsbD_and]
  grind

namespace Mmu

variable (mmu : Mmu)

/-- Entry `i` of a table, if it is present with its reserved bits clear. -/
def entry (m : Bytes) (table : BitVec 64) (i : Nat) : Option (BitVec 64) :=
  let e := m.read64 (table + BitVec.ofNat 64 (8 * i))
  if field e 0 1 = 1 ∧ field e mmu.physBits (52 - mmu.physBits) = 0 ∧ field e 63 1 = 0 then some e else none

def walkPd (m : Bytes) (es : List (BitVec 64)) (pd : BitVec 64) (v : BitVec 48) : Option Translation :=
  (mmu.entry m pd (index v 21)).bind fun e =>
    if field e 7 1 = 1 then
      if field e 13 8 = 0 then some (leaf (es ++ [e]) (field e 21 31 * 2 ^ 21) (v.toNat % 2 ^ 21)) else none
    else
      (mmu.entry m (frame e) (index v 12)).map fun e' =>
        leaf (es ++ [e, e']) (field e' 12 40 * 2 ^ 12) (v.toNat % 2 ^ 12)

def walkPdpt (m : Bytes) (es : List (BitVec 64)) (pdpt : BitVec 64) (v : BitVec 48) : Option Translation :=
  (mmu.entry m pdpt (index v 30)).bind fun e =>
    if field e 7 1 = 1 then
      if mmu.gbPages = true ∧ field e 13 17 = 0 then
        some (leaf (es ++ [e]) (field e 30 22 * 2 ^ 30) (v.toNat % 2 ^ 30))
      else none
    else mmu.walkPd m (es ++ [e]) (frame e) v

def walk (m : Bytes) (root : BitVec 64) (v : BitVec 48) : Option Translation :=
  (mmu.entry m root (index v 39)).bind fun e =>
    if field e 7 1 = 1 then none else mmu.walkPdpt m [e] (frame e) v

variable {mmu}

theorem entry_congr {m m' : Bytes} {table : BitVec 64} {i : Nat}
    (h : m.read64 (table + BitVec.ofNat 64 (8 * i)) = m'.read64 (table + BitVec.ofNat 64 (8 * i))) :
    mmu.entry m table i = mmu.entry m' table i := by
  rw [entry, entry, h]

theorem entry_of_not_present {m : Bytes} {table : BitVec 64} {i : Nat}
    (h : field (m.read64 (table + BitVec.ofNat 64 (8 * i))) 0 1 = 0) : mmu.entry m table i = none :=
  if_neg fun hp => absurd (h.symm.trans hp.1) (by decide)

theorem entry_of_zero {m : Bytes} {table : BitVec 64} {i : Nat}
    (h : m.read64 (table + BitVec.ofNat 64 (8 * i)) = 0) : mmu.entry m table i = none :=
  entry_of_not_present (by rw [h]; decide)

theorem entry_of_present {m : Bytes} {table e : BitVec 64} {i : Nat}
    (h : m.read64 (table + BitVec.ofNat 64 (8 * i)) = e) (hp : field e 0 1 = 1) (hlt : e.toNat < 2 ^ 33) :
    mmu.entry m table i = some e := by
  have hbits : e.toNat < 2 ^ mmu.physBits := lt_of_lt_of_le hlt (Nat.pow_le_pow_right (by decide) mmu.physBits_ge)
  rw [entry, h]
  refine if_pos ⟨hp, ?_, ?_⟩
  · rw [field, Nat.div_eq_of_lt hbits, Nat.zero_mod]
  · rw [field, Nat.div_eq_of_lt (by omega), Nat.zero_mod]

/-- An entry for the table at `t`: present, writable, user. -/
structure Link (e : BitVec 64) (t : Nat) : Prop where
  eq : e.toNat = t + 7
  aligned : t % 2 ^ 12 = 0
  lt : t < 2 ^ 32 + 2 ^ 30

/-- An entry for the 2MB page at `x`: present, writable, user. -/
structure Huge (e : BitVec 64) (x : Nat) : Prop where
  eq : e.toNat = x + 0x87
  aligned : x % 2 ^ 21 = 0
  lt : x < 2 ^ 32 + 2 ^ 30

theorem Link.bare_eq {e : BitVec 64} {t : Nat} (h : Link e t) : bare e = e := by
  obtain ⟨heq, hal, -⟩ := h
  exact Lib.bare_eq (by omega)

theorem Huge.bare_eq {e : BitVec 64} {x : Nat} (h : Huge e x) : bare e = e := by
  obtain ⟨heq, hal, -⟩ := h
  exact Lib.bare_eq (by omega)

theorem toNat_or_of_aligned {x y : BitVec 64} {k : Nat} (hx : x.toNat % 2 ^ k = 0) (hy : y.toNat < 2 ^ k) :
    (x ||| y).toNat = x.toNat + y.toNat := by
  have hmul : x.toNat = 2 ^ k * (x.toNat / 2 ^ k) := by
    rw [Nat.mul_div_cancel' (Nat.dvd_of_mod_eq_zero hx)]
  rw [BitVec.toNat_or, hmul, ← Nat.two_pow_add_eq_or_of_lt hy]

theorem link_or {t flags : BitVec 64} (hf : flags = 7) (hal : t.toNat % 2 ^ 12 = 0) (hlt : t.toNat < 2 ^ 32 + 2 ^ 30) :
    Link (t ||| flags) t.toNat := by
  subst hf
  exact ⟨toNat_or_of_aligned hal (by decide), hal, hlt⟩

theorem huge_or {x flags : BitVec 64} (hf : flags = 0x87) (hal : x.toNat % 2 ^ 21 = 0)
    (hlt : x.toNat < 2 ^ 32 + 2 ^ 30) : Huge (x ||| flags) x.toNat := by
  subst hf
  exact ⟨toNat_or_of_aligned hal (by decide), hal, hlt⟩

theorem Link.entry {m : Bytes} {table e : BitVec 64} {i t : Nat} (h : Link e t)
    (hr : m.read64 (table + BitVec.ofNat 64 (8 * i)) = e) : mmu.entry m table i = some e := by
  obtain ⟨heq, hal, hlt⟩ := h
  apply entry_of_present hr _ (by omega)
  unfold field
  omega

theorem Huge.entry {m : Bytes} {table e : BitVec 64} {i x : Nat} (h : Huge e x)
    (hr : m.read64 (table + BitVec.ofNat 64 (8 * i)) = e) : mmu.entry m table i = some e := by
  obtain ⟨heq, hal, hlt⟩ := h
  apply entry_of_present hr _ (by omega)
  unfold field
  omega

theorem Link.fields {e : BitVec 64} {t : Nat} (h : Link e t) :
    frame e = BitVec.ofNat 64 t ∧ field e 7 1 = 0 ∧ field e 1 1 = 1 ∧ field e 2 1 = 1 := by
  obtain ⟨heq, hal, hlt⟩ := h
  refine ⟨?_, ?_, ?_, ?_⟩
  · rw [frame, field]
    congr 1
    omega
  all_goals
    unfold field
    omega

theorem Huge.fields {e : BitVec 64} {x : Nat} (h : Huge e x) :
    field e 21 31 * 2 ^ 21 = x ∧ field e 13 8 = 0 ∧ field e 7 1 = 1 ∧ field e 1 1 = 1 ∧ field e 2 1 = 1 := by
  obtain ⟨heq, hal, hlt⟩ := h
  refine ⟨?_, ?_, ?_, ?_, ?_⟩
  all_goals
    unfold field
    omega

/-- An entry for the 4KB page at `x`: present, user, and writable or not. -/
structure Small (e : BitVec 64) (x : Nat) (writable : Bool) : Prop where
  eq : e.toNat = x + if writable = true then 7 else 5
  aligned : x % 2 ^ 12 = 0
  lt : x < 2 ^ 32 + 2 ^ 30

theorem Link.small {e : BitVec 64} {t : Nat} (h : Link e t) : Small e t true := ⟨h.eq, h.aligned, h.lt⟩

theorem Small.fields {e : BitVec 64} {x : Nat} {w : Bool} (h : Small e x w) :
    field e 0 1 = 1 ∧ field e 12 40 * 2 ^ 12 = x ∧ (field e 1 1 == 1) = w ∧ field e 2 1 = 1 := by
  obtain ⟨heq, hal, hlt⟩ := h
  have hbits : e.toNat = x + 5 + 2 * w.toNat := by
    rw [heq]
    cases w <;> rfl
  have hw := Bool.toNat_le w
  refine ⟨?_, ?_, ?_, ?_⟩
  · unfold field
    omega
  · unfold field
    omega
  · have hfield : field e 1 1 = w.toNat := by
      unfold field
      omega
    rw [hfield]
    cases w <;> rfl
  · unfold field
    omega

theorem Small.entry {m : Bytes} {table e : BitVec 64} {i x : Nat} {w : Bool} (h : Small e x w)
    (hr : m.read64 (table + BitVec.ofNat 64 (8 * i)) = e) : mmu.entry m table i = some e := by
  have hpresent := h.fields.1
  obtain ⟨heq, -, hlt⟩ := h
  refine entry_of_present hr hpresent ?_
  split at heq <;> omega

/-! ## The steps of a walk -/

section Steps
variable {m : Bytes} {root e : BitVec 64} {v : BitVec 48} {t x : Nat} {es : List (BitVec 64)}

theorem isSome_walk_iff : (mmu.walk m root v).isSome = true ↔
    ∃ e, mmu.entry m root (index v 39) = some e ∧ field e 7 1 = 0 ∧
      (mmu.walkPdpt m [e] (frame e) v).isSome = true := by
  rw [walk]
  cases mmu.entry m root (index v 39) with
  | none => simp
  | some e =>
      have hbit : field e 7 1 = 0 ∨ field e 7 1 = 1 := by unfold field; omega
      rcases hbit with hbit | hbit <;> simp [hbit]

theorem walk_link (h : Link e t) (hr : m.read64 (root + BitVec.ofNat 64 (8 * index v 39)) = e) :
    mmu.walk m root v = mmu.walkPdpt m [e] (BitVec.ofNat 64 t) v := by
  rw [walk, h.entry hr, Option.bind_some, if_neg (by rw [h.fields.2.1]; decide), h.fields.1]

theorem walkPdpt_link (h : Link e t) (hr : m.read64 (root + BitVec.ofNat 64 (8 * index v 30)) = e) :
    mmu.walkPdpt m es root v = mmu.walkPd m (es ++ [e]) (BitVec.ofNat 64 t) v := by
  rw [walkPdpt, h.entry hr, Option.bind_some, if_neg (by rw [h.fields.2.1]; decide), h.fields.1]

/-- In a page directory pointer table such an entry is for a page of 1GB. -/
theorem walkPdpt_huge (h : Huge e x) (hx : field e 13 17 = 0)
    (hr : m.read64 (root + BitVec.ofNat 64 (8 * index v 30)) = e) :
    (mmu.walkPdpt m es root v).isSome = mmu.gbPages := by
  rw [walkPdpt, h.entry hr, Option.bind_some, if_pos h.fields.2.2.1]
  cases hgb : mmu.gbPages with
  | true => rw [if_pos ⟨rfl, hx⟩, Option.isSome_some]
  | false => rw [if_neg fun hc => Bool.false_ne_true hc.1, Option.isSome_none]

theorem walkPdpt_huge_none (h : Huge e x) (hgb : mmu.gbPages = false)
    (hr : m.read64 (root + BitVec.ofNat 64 (8 * index v 30)) = e) : mmu.walkPdpt m es root v = none := by
  rw [walkPdpt, h.entry hr, Option.bind_some, if_pos h.fields.2.2.1, hgb]
  exact if_neg fun hc => Bool.false_ne_true hc.1

theorem walkPd_huge (h : Huge e x) (hr : m.read64 (root + BitVec.ofNat 64 (8 * index v 21)) = e) :
    mmu.walkPd m es root v = some (leaf (es ++ [e]) x (v.toNat % 2 ^ 21)) := by
  obtain ⟨hx, hres, hps, -⟩ := h.fields
  rw [walkPd, h.entry hr, Option.bind_some, if_pos hps, if_pos hres, hx]

theorem walkPd_link (h : Link e t) (hr : m.read64 (root + BitVec.ofNat 64 (8 * index v 21)) = e) :
    mmu.walkPd m es root v = (mmu.entry m (BitVec.ofNat 64 t) (index v 12)).map fun e' =>
      leaf (es ++ [e, e']) (field e' 12 40 * 2 ^ 12) (v.toNat % 2 ^ 12) := by
  rw [walkPd, h.entry hr, Option.bind_some, if_neg (by rw [h.fields.2.1]; decide), h.fields.1]

theorem walkPdpt_none (hr : m.read64 (root + BitVec.ofNat 64 (8 * index v 30)) = 0) :
    mmu.walkPdpt m es root v = none := by
  rw [walkPdpt, entry_of_zero hr, Option.bind_none]

theorem walkPd_none (hr : m.read64 (root + BitVec.ofNat 64 (8 * index v 21)) = 0) :
    mmu.walkPd m es root v = none := by
  rw [walkPd, entry_of_zero hr, Option.bind_none]

theorem leaf_huge {e₄ e₃ : BitVec 64} {t₄ t₃ offset : Nat} (h₄ : Link e₄ t₄) (h₃ : Link e₃ t₃) (h : Huge e x) :
    leaf ([e₄] ++ [e₃] ++ [e]) x offset = ⟨BitVec.ofNat 64 (x + offset), true, true⟩ := by
  obtain ⟨-, -, hw₄, hu₄⟩ := h₄.fields
  obtain ⟨-, -, hw₃, hu₃⟩ := h₃.fields
  obtain ⟨-, -, -, hw, hu⟩ := h.fields
  simp [leaf, hw₄, hu₄, hw₃, hu₃, hw, hu]

theorem leaf_small {e₄ e₃ e₂ : BitVec 64} {t₄ t₃ t₂ offset : Nat} {w : Bool} (h₄ : Link e₄ t₄) (h₃ : Link e₃ t₃)
    (h₂ : Link e₂ t₂) (h : Small e x w) :
    leaf ([e₄] ++ [e₃] ++ [e₂, e]) (field e 12 40 * 2 ^ 12) offset = ⟨BitVec.ofNat 64 (x + offset), w, true⟩ := by
  obtain ⟨-, -, hw₄, hu₄⟩ := h₄.fields
  obtain ⟨-, -, hw₃, hu₃⟩ := h₃.fields
  obtain ⟨-, -, hw₂, hu₂⟩ := h₂.fields
  obtain ⟨-, hx, hw, hu⟩ := h.fields
  rw [hx]
  simp [leaf, hw₄, hu₄, hw₃, hu₃, hw₂, hu₂, hw, hu]

end Steps

/-! ## Walks without the flags -/

theorem entry_unflag (m : Bytes) {table : BitVec 64} (h : table.toNat % 8 = 0) (i : Nat) :
    mmu.entry m.unflag table i = (mmu.entry m table i).map bare := by
  have hal : (table + BitVec.ofNat 64 (8 * i)).toNat % 8 = 0 := by
    rw [BitVec.toNat_add, BitVec.toNat_ofNat]
    omega
  have hge := mmu.physBits_ge
  unfold entry
  rw [read64_unflag m hal]
  dsimp only
  rw [field_bare_low _ (by decide), field_bare_high _ (by omega), field_bare_high _ (by decide)]
  split <;> rfl

theorem walkPd_unflag (m : Bytes) (es : List (BitVec 64)) {pd : BitVec 64} (h : pd.toNat % 8 = 0) (v : BitVec 48) :
    mmu.walkPd m.unflag (es.map bare) pd v = mmu.walkPd m es pd v := by
  unfold walkPd
  rw [entry_unflag m h, Option.bind_map]
  congr 1
  funext e
  have hal := frame_aligned e
  rw [Function.comp_apply, field_bare_high e (by decide), field_bare_high e (by decide), field_bare_high e (by decide),
    frame_bare, entry_unflag m (by omega), Option.map_map]
  split
  · rw [show es.map bare ++ [bare e] = (es ++ [e]).map bare by simp, leaf_bare]
  · refine Option.map_congr fun e' _ => ?_
    rw [Function.comp_apply, field_bare_high e' (by decide),
      show es.map bare ++ [bare e, bare e'] = (es ++ [e, e']).map bare by simp, leaf_bare]

theorem walkPdpt_unflag (m : Bytes) (es : List (BitVec 64)) {pdpt : BitVec 64} (h : pdpt.toNat % 8 = 0) (v : BitVec 48) :
    mmu.walkPdpt m.unflag (es.map bare) pdpt v = mmu.walkPdpt m es pdpt v := by
  unfold walkPdpt
  rw [entry_unflag m h, Option.bind_map]
  congr 1
  funext e
  have hal := frame_aligned e
  rw [Function.comp_apply, field_bare_high e (by decide), field_bare_high e (by decide), field_bare_high e (by decide),
    frame_bare, show es.map bare ++ [bare e] = (es ++ [e]).map bare by simp, leaf_bare,
    walkPd_unflag m _ (by omega)]

/-- **A walk does not depend on accessed and dirty flags.** -/
theorem walk_unflag (m : Bytes) {root : BitVec 64} (h : root.toNat % 8 = 0) (v : BitVec 48) :
    mmu.walk m.unflag root v = mmu.walk m root v := by
  unfold walk
  rw [entry_unflag m h, Option.bind_map]
  congr 1
  funext e
  have hal := frame_aligned e
  rw [Function.comp_apply, field_bare_high e (by decide), frame_bare, ← List.map_singleton,
    walkPdpt_unflag m _ (by omega)]

end Mmu
end Toshokan.Lib
