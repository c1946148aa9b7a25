import Toshokan.Lib.Paging

/-!
# A processor that keeps translations

Between two flushes a processor may use any translation of an address that the tables have had: it may have kept it, also
without an access. It does not keep that there is none.

* `Paged` : memory and the translations that may have been kept; `pick` : the one an access uses, by choice `n`;
* `Access`, `exec` : stores, loads and `invlpg`; `runs` : several, with the choices of the processor;
* `pick_eq` : an access whose kept translations are the one of the tables; `pick_kept` : any kept one may be used;
* `Triple` : what holds after accesses for all choices, with the rules `append`, `one`, `loop` and `each`.
-/

namespace Toshokan.Lib

/-- Memory, for every address the translations that may have been kept, the register that was loaded last, and the
physical addresses that loads have read. -/
structure Paged where
  mem : Bytes
  tlb : BitVec 48 → List Translation
  reg : BitVec 64
  loads : List (BitVec 64)

inductive Access
  | store (a v : BitVec 64)
  | load (a : BitVec 64)
  | storeReg (a : BitVec 64)
  | invlpg (a : BitVec 64)

namespace Paged

variable (mmu : Mmu) (wp : Bool) (root : BitVec 64)

/-- Translation `n` of those kept, or a walk. -/
def pick (s : Paged) (v : BitVec 48) (n : Nat) : Option Translation :=
  match (s.tlb v)[n]? with
  | some t => some t
  | none => mmu.walk s.mem root v

/-- After a write the translations by the tables may be kept. -/
def write (s : Paged) (a v : BitVec 64) : Paged where
  mem := s.mem.write64 a v
  tlb w := s.tlb w ++ (mmu.walk (s.mem.write64 a v) root w).toList
  reg := s.reg
  loads := s.loads

/-- A store at privilege level 0: pages that are not writable are protected if `CR0.WP` is set. -/
def storeAt (n : Nat) (s : Paged) (a v : BitVec 64) : Option Paged :=
  (s.pick mmu root (a.setWidth 48) n).bind fun t =>
    if wp = true ∧ t.writable = false then none else some (s.write mmu root t.phys v)

def loaded (s : Paged) (p : BitVec 64) : Paged := { s with reg := s.mem.read64 p, loads := s.loads ++ [p] }

def flush (s : Paged) (a : BitVec 48) : Paged :=
  { s with tlb := fun v => if v.toNat / 2 ^ 12 = a.toNat / 2 ^ 12 then (mmu.walk s.mem root v).toList else s.tlb v }

/-- One access, with choice `n`; `none` is a page fault. -/
def exec (n : Nat) (s : Paged) : Access → Option Paged
  | .store a v => storeAt mmu wp root n s a v
  | .load a => (s.pick mmu root (a.setWidth 48) n).map fun t => s.loaded t.phys
  | .storeReg a => storeAt mmu wp root n s a s.reg
  | .invlpg a => some (s.flush mmu root (a.setWidth 48))

def runs : List Access → List Nat → Paged → Option Paged
  | [], _, s => some s
  | x :: xs, ns, s => (exec mmu wp root (ns.headD 0) s x).bind (runs xs ns.tail)

variable {mmu wp root} {s s' : Paged}

theorem pick_eq {v : BitVec 48} (h : ∀ t ∈ s.tlb v, mmu.walk s.mem root v = some t) (n : Nat) :
    s.pick mmu root v n = mmu.walk s.mem root v := by
  unfold pick
  split
  · rename_i t ht
    exact (h t (List.mem_of_getElem? ht)).symm
  · rfl

theorem pick_kept {v : BitVec 48} {t : Translation} (h : t ∈ s.tlb v) : ∃ n, s.pick mmu root v n = some t := by
  obtain ⟨n, hn⟩ := List.mem_iff_getElem?.mp h
  refine ⟨n, ?_⟩
  unfold pick
  rw [hn]

variable (mmu root) in
theorem exists_pick_walk (s : Paged) (v : BitVec 48) : ∃ n, s.pick mmu root v n = mmu.walk s.mem root v := by
  refine ⟨(s.tlb v).length, ?_⟩
  unfold pick
  rw [List.getElem?_eq_none le_rfl]

/-- An address that is mapped can be used, by a translation that was kept or by the tables. -/
theorem pick_some {v : BitVec 48} {t₀ : Translation} (h : mmu.walk s.mem root v = some t₀) (n : Nat) :
    ∃ t, s.pick mmu root v n = some t ∧ (t ∈ s.tlb v ∨ t = t₀) := by
  unfold pick
  split
  · rename_i t ht
    exact ⟨t, rfl, .inl (List.mem_of_getElem? ht)⟩
  · exact ⟨t₀, h, .inr rfl⟩

theorem storeAt_eq {n : Nat} {a v : BitVec 64} {t : Translation} (h : s.pick mmu root (a.setWidth 48) n = some t)
    (hw : wp = false ∨ t.writable = true) : storeAt mmu wp root n s a v = some (s.write mmu root t.phys v) := by
  rw [storeAt, h, Option.bind_some, if_neg]
  rintro ⟨hwp, hro⟩
  rcases hw with hw | hw
  · exact Bool.false_ne_true (hw.symm.trans hwp)
  · exact Bool.false_ne_true (hro.symm.trans hw)

theorem mem_write {a v : BitVec 64} {w : BitVec 48} {t : Translation} :
    t ∈ (s.write mmu root a v).tlb w ↔ t ∈ s.tlb w ∨ mmu.walk (s.mem.write64 a v) root w = some t := by
  unfold write
  rw [List.mem_append, Option.mem_toList]

/-! ## Runs -/

theorem loads_exec {n : Nat} {x : Access} (h : exec mmu wp root n s x = some s') : s.loads <+: s'.loads := by
  have hstore : ∀ {a v : BitVec 64}, storeAt mmu wp root n s a v = some s' → s.loads <+: s'.loads := by
    intro a v h
    obtain ⟨t, -, ht⟩ := Option.bind_eq_some_iff.mp h
    split at ht
    · cases ht
    · obtain rfl := Option.some.inj ht
      exact List.prefix_rfl
  cases x with
  | store a v => exact hstore h
  | storeReg a => exact hstore h
  | load a =>
      obtain ⟨t, -, rfl⟩ := Option.map_eq_some_iff.mp h
      exact List.prefix_append _ _
  | invlpg a =>
      obtain rfl := Option.some.inj h
      exact List.prefix_rfl

theorem loads_runs {xs : List Access} {ns : List Nat} (h : runs mmu wp root xs ns s = some s') :
    s.loads <+: s'.loads := by
  induction xs generalizing ns s with
  | nil =>
      obtain rfl := Option.some.inj h
      exact List.prefix_rfl
  | cons x xs ih =>
      obtain ⟨s₁, h₁, hrest⟩ := Option.bind_eq_some_iff.mp h
      exact (loads_exec h₁).trans (ih hrest)

theorem runs_cons {x : Access} {xs : List Access} {n : Nat} {ns : List Nat} {s₁ : Paged}
    (h : exec mmu wp root n s x = some s₁) : runs mmu wp root (x :: xs) (n :: ns) s = runs mmu wp root xs ns s₁ := by
  rw [runs, List.headD_cons, h, Option.bind_some, List.tail_cons]

theorem runs_append (xs ys : List Access) (ns : List Nat) (s : Paged) :
    runs mmu wp root (xs ++ ys) ns s = (runs mmu wp root xs ns s).bind (runs mmu wp root ys (ns.drop xs.length)) := by
  induction xs generalizing ns s with
  | nil => rfl
  | cons x xs ih =>
      rw [List.cons_append, runs, runs, Option.bind_assoc, List.length_cons, ← List.drop_tail]
      congr 1
      funext s₁
      exact ih ns.tail s₁

theorem runs_append_choices {xs : List Access} {ms : List Nat} (h : ms.length = xs.length) (ys : List Access)
    (ns : List Nat) (s : Paged) :
    runs mmu wp root (xs ++ ys) (ms ++ ns) s = (runs mmu wp root xs ms s).bind (runs mmu wp root ys ns) := by
  rw [runs_append, ← h, List.drop_left]
  congr 1
  induction xs generalizing ms s with
  | nil => rfl
  | cons x xs ih =>
      cases ms with
      | nil => cases h
      | cons k ms =>
          rw [List.cons_append, runs, runs, List.headD_cons, List.headD_cons, List.tail_cons, List.tail_cons]
          congr 1
          funext s₁
          exact ih (Nat.succ.inj h) s₁

theorem forall_runs_cons {x : Access} {xs : List Access} {s₁ : Paged} (hx : ∀ n, exec mmu wp root n s x = some s₁)
    (Q : Paged → Prop) :
    (∀ ns, ∃ s', runs mmu wp root (x :: xs) ns s = some s' ∧ Q s') ↔
      ∀ ns, ∃ s', runs mmu wp root xs ns s₁ = some s' ∧ Q s' := by
  constructor
  · intro h ns
    obtain ⟨s', hrun, hq⟩ := h (0 :: ns)
    exact ⟨s', (runs_cons (hx 0)).symm.trans hrun, hq⟩
  · intro h ns
    obtain ⟨s', hrun, hq⟩ := h ns.tail
    refine ⟨s', ?_, hq⟩
    rw [runs, hx, Option.bind_some, hrun]

/-! ## Pre- and postconditions -/

variable (mmu wp root) in
/-- From a state with `I` the accesses do not fault, whatever the choices are, and end in one with `J`. -/
def Triple (I : Paged → Prop) (xs : List Access) (J : Paged → Prop) : Prop :=
  ∀ ns s, I s → ∃ s', runs mmu wp root xs ns s = some s' ∧ J s'

namespace Triple

variable {I J K : Paged → Prop} {xs ys : List Access}

theorem append (h : Triple mmu wp root I xs J) (h' : Triple mmu wp root J ys K) : Triple mmu wp root I (xs ++ ys) K := by
  intro ns s hs
  obtain ⟨s₁, hrun₁, hs₁⟩ := h ns s hs
  obtain ⟨s₂, hrun₂, hs₂⟩ := h' (ns.drop xs.length) s₁ hs₁
  exact ⟨s₂, by rw [runs_append, hrun₁, Option.bind_some, hrun₂], hs₂⟩

theorem one {x : Access} (h : ∀ n s, I s → ∃ s', exec mmu wp root n s x = some s' ∧ J s') :
    Triple mmu wp root I [x] J := by
  intro ns s hs
  obtain ⟨s', hexec, hs'⟩ := h (ns.headD 0) s hs
  exact ⟨s', by rw [runs, hexec, Option.bind_some, runs], hs'⟩

theorem consequence {I' J' : Paged → Prop} (h : Triple mmu wp root I xs J) (hI : ∀ s, I' s → I s) (hJ : ∀ s, J s → J' s) :
    Triple mmu wp root I' xs J' := by
  intro ns s hs
  obtain ⟨s', hrun, hs'⟩ := h ns s (hI s hs)
  exact ⟨s', hrun, hJ s' hs'⟩

/-- A loop whose invariant counts its turns. -/
theorem loop {I : Nat → Paged → Prop} {body : Nat → List Access} {n a : Nat}
    (h : ∀ i, a ≤ i → i < a + n → Triple mmu wp root (I i) (body i) (I (i + 1))) :
    Triple mmu wp root (I a) ((List.range' a n).flatMap body) (I (a + n)) := by
  induction n generalizing a with
  | zero => exact fun ns s hs => ⟨s, rfl, hs⟩
  | succ n ih =>
      have hrest := ih (a := a + 1) fun i hi hlt => h i (by omega) (by omega)
      rw [Nat.add_assoc, Nat.add_comm 1 n] at hrest
      rw [List.range'_succ, List.flatMap_cons]
      exact (h a le_rfl (by omega)).append hrest

/-- A loop that keeps an invariant. -/
theorem each {α : Type*} {body : α → List Access} {is : List α} (h : ∀ i ∈ is, Triple mmu wp root I (body i) I) :
    Triple mmu wp root I (is.flatMap body) I := by
  induction is with
  | nil => exact fun ns s hs => ⟨s, rfl, hs⟩
  | cons i is ih =>
      rw [List.flatMap_cons]
      exact (h i List.mem_cons_self).append (ih fun j hj => h j (List.mem_cons_of_mem _ hj))

end Triple
end Paged
end Toshokan.Lib
