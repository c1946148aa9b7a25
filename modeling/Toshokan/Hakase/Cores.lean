import Toshokan.FriendLoader.Report
import Toshokan.Hakase.Trampoline

/-!
# From `cpu_start` to the friend

The cores that `cpu_start` wakes come through one trampoline, in any order and at any time, while Linux, hakase and the
friend write to memory.

* `Cores`, `Move`, `Cores.step` : the cores and the memory, and what may happen to them: interrupts that arrive or get
  lost, instructions, accessed and dirty flags, and what others write; `Allowed` : what the trampoline relies on;
* `Cores.Inv`, `inv_run` : no core ever faults in the trampoline, and it stays ready;
* `phase_run` : where a core is, from the interrupts it got; `course_run` : how far it has come, from its turns;
* `trampoline_safe`, `started_enters_friend` : both after `setup`.
-/

namespace Toshokan.Hakase
open Lib (Bytes Range Meets run)
open Lib.X86
open FriendLoader

/-! ## Cores, memory and interrupts -/

/-- A core is with Linux or offline, it waits for a STARTUP after an INIT, it runs, or it has shut down: there is no
handler for an exception in the trampoline. -/
inductive Phase
  | away
  | waiting
  | running
  | shutdown
  deriving DecidableEq, Repr

/-- What an interrupt does to a core that has not shut down in between. -/
def Phase.receive : Phase → IcrMode → Phase
  | _, .initAssert => .waiting
  | .waiting, .startup _ => .running
  | x, _ => x

/-- Of the interrupts sent, those that arrive. -/
def arrived (sent : List (IcrMode × Bool)) : List IcrMode := sent.filterMap fun x => if x.2 = true then some x.1 else none

theorem arrived_append (sent sent' : List (IcrMode × Bool)) : arrived (sent ++ sent') = arrived sent ++ arrived sent' :=
  List.filterMap_append

theorem Phase.receive_startups {vector : BitVec 64} {k : Nat} {sent : List (IcrMode × Bool)}
    (h : sent.map Prod.fst = List.replicate k (.startup vector)) : (arrived sent).foldl Phase.receive .running = .running := by
  induction sent generalizing k with
  | nil => rfl
  | cons x sent ih =>
      obtain ⟨mode, b⟩ := x
      cases k with
      | zero => cases h
      | succ k =>
          obtain ⟨hmode, hrest⟩ := List.cons_eq_cons.mp h
          dsimp only at hmode
          subst hmode
          cases b with
          | false => exact ih hrest
          | true => exact ih hrest

/-- A core whose INIT and first STARTUP have gone through is started, wherever it is. -/
theorem Phase.receive_wakeup (x : Phase) {a : Apic} {vector : BitVec 64} {k : Nat} (hk : 0 < k)
    {sent : List (IcrMode × Bool)} (h : a.Honest sent) (hinit : a.Acked 0) (hstart : a.Acked 2)
    (hsent : sent.map Prod.fst = [.initAssert, .initDeassert] ++ List.replicate k (.startup vector)) :
    (arrived sent).foldl Phase.receive x = .running := by
  obtain ⟨k, rfl⟩ := Nat.exists_eq_succ_of_ne_zero hk.ne'
  rcases sent with _ | ⟨⟨m₀, b₀⟩, _ | ⟨⟨m₁, b₁⟩, _ | ⟨⟨m₂, b₂⟩, rest⟩⟩⟩
  · cases hsent
  · cases hsent
  · cases hsent
  · simp only [List.map_cons, List.cons_append, List.nil_append, List.replicate_succ, List.cons.injEq] at hsent
    obtain ⟨rfl, rfl, rfl, hrest⟩ := hsent
    obtain rfl : b₀ = true := h 0 _ rfl hinit
    obtain rfl : b₂ = true := h 2 _ rfl hstart
    -- the deassertion of INIT does nothing to the core
    cases b₁ with
    | false => exact receive_startups hrest
    | true => exact receive_startups hrest

structure Cores where
  mem : Bytes
  phase : Int → Phase
  regs : Int → Core

/-- An operation on the local APIC, whose interrupt arrives or is lost, an instruction of a core, accessed and dirty flags
that the paging of a core sets, as early as it likes, or a store of somebody else: cores that have left the trampoline
among them. -/
inductive Move
  | apic (op : ApicOp) (arrives : Bool)
  | core (id : Int)
  | flags (m : Bytes)
  | other (m : Bytes)

namespace Cores

variable (cpu : Processor) (E : Encoding) (cache : Int → Cache) (s : Cores)

def receive (id : Int) (mode : IcrMode) : Cores :=
  { s with
    phase := Function.update s.phase id ((s.phase id).receive mode)
    regs := Function.update s.regs id <|
      match s.phase id, mode with
      | .waiting, .startup vector => startup (vector.setWidth 8) (cache id) (s.regs id)
      | _, _ => s.regs id }

/-- One instruction, for a core in the trampoline. -/
def turn (id : Int) : Cores :=
  if s.phase id = .running ∧ inTrampoline (s.regs id) = true then
    match cpu.step E s.mem (s.regs id) with
    | some (c, m) => { s with mem := m, regs := Function.update s.regs id c }
    | none => { s with phase := Function.update s.phase id .shutdown }
  else s

def step : Move → Cores
  | .apic (.icrWrite mode id) true => s.receive cache id mode
  | .apic _ _ => s
  | .core id => s.turn cpu E id
  | .flags m | .other m => { s with mem := m }

def initial (m : Bytes) (regs : Int → Core) : Cores := ⟨m, fun _ => .away, regs⟩

end Cores

/-- The operations on the APIC are those of `cpu_start`, for any processor and whatever it answers, and nobody writes to
the page of the code and the page tables, accessed and dirty flags apart. -/
def Allowed (T : Tables) (s : Cores) : Move → Prop
  | .apic op _ => ∃ P online i t, op ∈ (cpuStart P ⟨online, []⟩ i t).2.ops
  | .core _ => True
  | .flags m => Flagged T s.mem m
  | .other m => Kept T s.mem m

/-- The interrupt a move sends to the core `id`, with whether it arrives. -/
def Move.sentTo (id : Int) : Move → Option (IcrMode × Bool)
  | .apic op arrives => (op.signalTo id).map (·, arrives)
  | _ => none

/-- The interrupt that arrives at the core `id`. -/
def Move.signalTo (id : Int) : Move → Option IcrMode
  | .apic op true => op.signalTo id
  | _ => none

theorem filterMap_signalTo (id : Int) (ts : List Move) :
    ts.filterMap (Move.signalTo id) = arrived (ts.filterMap (Move.sentTo id)) := by
  rw [arrived, List.filterMap_filterMap]
  congr 1
  funext t
  rcases t with ⟨op, _ | _⟩ | _ | _ | _
  · cases h : op.signalTo id <;> simp [Move.signalTo, Move.sentTo, h]
  · cases h : op.signalTo id <;> simp [Move.signalTo, Move.sentTo, h]
  · rfl
  · rfl
  · rfl

/-- The memory as the others leave it. -/
def Move.stores (m : Bytes) : Move → Bytes
  | .other m' => m'
  | _ => m

def Move.isTurn (id : Int) : Move → Bool
  | .core i => i == id
  | _ => false

/-! ## The invariant -/

section
variable {E : Encoding} {A : Assembly E} {T : Tables} {entry : BitVec 64} {cpu : Processor} {cache : Int → Cache}
variable {s : Cores} {id : Int} {c : Core} {n : Nat}

/-- `cpu_start` starts cores at the trampoline. -/
theorem vector_of_allowed {vector : BitVec 64} {b : Bool} (h : Allowed T s (.apic (.icrWrite (.startup vector) id) b)) :
    vector.setWidth 8 = 0x70 := by
  obtain ⟨P, online, i, t, hop⟩ := h
  have hop' := (mem_cpuStart_ops hop).resolve_left List.not_mem_nil
  have hid : id = P.apicid i := (wakeup_ops _ _ _).1 _ hop' _ rfl
  obtain ⟨k, hk, -⟩ := wakeup_signals t.apic (P.apicid i) TRAMPOLINE_ADDR
  have hmem : IcrMode.startup vector ∈ [.initAssert, .initDeassert] ++
      List.replicate k (IcrMode.startup (TRAMPOLINE_ADDR >>> 12)) := by
    rw [← hk]
    exact List.mem_filterMap.mpr ⟨_, hop', if_pos hid⟩
  have hv : vector = TRAMPOLINE_ADDR >>> 12 := by
    rcases List.mem_append.mp hmem with h | h
    · simp at h
    · exact IcrMode.startup.inj (List.eq_of_mem_replicate h)
  rw [hv]
  rfl

def Cores.OnCourse (A : Assembly E) (entry : BitVec 64) (cache : Int → Cache) (s : Cores) (id : Int) (c : Core)
    (n : Nat) : Prop :=
  s.phase id = .running ∧ s.regs id = A.coreAt entry (cache id) c n

/-- The memories differ at most in the accessed bits of descriptors, and in the accessed and dirty flags of page table
entries. -/
def SameButMarks (A : Assembly E) (T : Tables) (m m' : Bytes) : Prop :=
  ∀ a, (∀ j ∈ descriptorLines, a ≠ A.place j + 5) → SameButFlags T m m' a

namespace Cores

/-- The trampoline is ready, no core has shut down, and every core that runs is on its course. -/
structure Inv (A : Assembly E) (T : Tables) (entry : BitVec 64) (cache : Int → Cache) (s : Cores) : Prop where
  ready : Ready A T entry s.mem
  alive : ∀ id, s.phase id ≠ .shutdown
  course : ∀ id, s.phase id = .running → ∃ c, ∃ n ≤ 31, s.OnCourse A entry cache id c n

theorem coreAt_zero : A.coreAt entry (cache id) c 0 = startup 0x70 (cache id) c := by
  have h1 : A.offset 1 = 0 := A.offset_label (j := 0) rfl
  have hrip : A.ripAt entry 0 = 0 := by
    change BitVec.ofNat 64 (A.offset 1) = 0
    rw [h1]
    rfl
  rw [Assembly.coreAt, hrip]
  rfl

variable (cpu) in
theorem turn_of_course (hR : Ready A T entry s.mem) (hentry : InFriend entry) (h : s.OnCourse A entry cache id c n)
    (hn : n < 31) : ∃ m, Ready A T entry m ∧ SameButMarks A T s.mem m ∧
      s.turn cpu E id = { s with mem := m, regs := Function.update s.regs id (A.coreAt entry (cache id) c (n + 1)) } := by
  obtain ⟨hin, m, hstep, hm⟩ := step_course cpu hR hentry (cache id) c hn
  rw [← h.2] at hin hstep
  have hturn : s.turn cpu E id =
      { s with mem := m, regs := Function.update s.regs id (A.coreAt entry (cache id) c (n + 1)) } := by
    rw [turn, if_pos ⟨h.1, hin⟩, hstep]
  rcases hm with rfl | ⟨j, hj, rfl⟩
  · exact ⟨_, hR, fun _ _ => .inl rfl, hturn⟩
  · obtain ⟨v, hv⟩ := descriptor_line hj
    exact ⟨_, hR.mark hj hv, fun a ha => .inl (Function.update_of_ne (ha j hj) _ _), hturn⟩

theorem turn_of_left (hentry : InFriend entry) (h : s.OnCourse A entry cache id c 31) : s.turn cpu E id = s := by
  have hout : inTrampoline (s.regs id) = false := by
    rw [h.2]
    exact inTrampoline_entry hentry
  refine if_neg fun hin => ?_
  rw [hout] at hin
  cases hin.2

theorem turn_away (h : s.phase id ≠ .running) : s.turn cpu E id = s := if_neg fun hin => h hin.1

variable (cpu) in
/-- A turn changes nothing, or the core goes on and the trampoline stays ready. -/
theorem Inv.turn_cases (h : s.Inv A T entry cache) (hentry : InFriend entry) (id : Int) :
    s.turn cpu E id = s ∨ ∃ c n m, n < 31 ∧ s.OnCourse A entry cache id c n ∧ Ready A T entry m ∧
      SameButMarks A T s.mem m ∧ s.turn cpu E id =
        { s with mem := m, regs := Function.update s.regs id (A.coreAt entry (cache id) c (n + 1)) } := by
  by_cases hrun : s.phase id = .running
  · obtain ⟨c, n, hn, hc⟩ := h.course id hrun
    rcases Nat.lt_or_eq_of_le hn with hlt | rfl
    · obtain ⟨m, hm, hsame, hturn⟩ := turn_of_course cpu h.ready hentry hc hlt
      exact .inr ⟨c, n, m, hlt, hc, hm, hsame, hturn⟩
    · exact .inl (turn_of_left hentry hc)
  · exact .inl (turn_away hrun)

section Receive
variable {mode : IcrMode} {i : Int}

theorem phase_receive : (s.receive cache id mode).phase i = if i = id then (s.phase id).receive mode else s.phase i :=
  Function.update_apply ..

theorem regs_receive_of_ne (h : i ≠ id) : (s.receive cache id mode).regs i = s.regs i := Function.update_of_ne h _ _

theorem regs_receive_running (h : s.phase id = .running) : (s.receive cache id mode).regs id = s.regs id := by
  refine (Function.update_self ..).trans ?_
  rw [h]

variable (cache) in
/-- A core that runs after an interrupt ran before, or it has got its STARTUP. -/
theorem receive_running (h : ((s.phase id).receive mode) = .running) :
    s.phase id = .running ∨ ∃ vector, mode = .startup vector ∧
      (s.receive cache id mode).regs id = startup (vector.setWidth 8) (cache id) (s.regs id) := by
  cases hp : s.phase id <;> cases mode <;> rw [hp] at h <;> simp only [Phase.receive, reduceCtorEq] at h
  case waiting.startup vector =>
    refine .inr ⟨vector, rfl, (Function.update_self ..).trans ?_⟩
    rw [hp]
  all_goals exact .inl rfl

end Receive

variable (E cpu cache) in
/-- An interrupt arrives, a core has its turn, the memory changes, or nothing happens. -/
theorem step_cases (s : Cores) (t : Move) :
    (∃ mode id, t = .apic (.icrWrite mode id) true) ∨ (∃ id, t = .core id) ∨ (∃ m, t = .flags m ∨ t = .other m) ∨
      s.step cpu E cache t = s ∧ (∀ id, t.signalTo id = none ∧ t.isTurn id = false) ∧ ∀ m, t.stores m = m := by
  rcases t with ⟨_ | _ | ⟨mode, id⟩, _ | _⟩ | id | m | m
  case apic.icrWrite.true => exact .inl ⟨mode, id, rfl⟩
  case core => exact .inr (.inl ⟨id, rfl⟩)
  case flags => exact .inr (.inr (.inl ⟨m, .inl rfl⟩))
  case other => exact .inr (.inr (.inl ⟨m, .inr rfl⟩))
  all_goals exact .inr (.inr (.inr ⟨rfl, fun _ => ⟨rfl, rfl⟩, fun _ => rfl⟩))

/-- **A step keeps the invariant.** -/
theorem inv_step (hentry : InFriend entry) {t : Move} (h : s.Inv A T entry cache) (ht : Allowed T s t) :
    (s.step cpu E cache t).Inv A T entry cache := by
  rcases step_cases E cpu cache s t with ⟨mode, id, rfl⟩ | ⟨id, rfl⟩ | ⟨m, hm⟩ | ⟨hsame, -⟩
  · refine ⟨h.ready, fun i => ?_, fun i hrun => ?_⟩
    · change (s.receive cache id mode).phase i ≠ .shutdown
      rw [phase_receive]
      split
      · have halive := h.alive id
        cases hp : s.phase id <;> cases mode <;> simp_all [Phase.receive]
      · exact h.alive i
    · change (s.receive cache id mode).phase i = .running at hrun
      by_cases hi : i = id
      · subst hi
        have hrecv := hrun
        rw [phase_receive, if_pos rfl] at hrecv
        rcases receive_running cache hrecv with hp | ⟨vector, rfl, hregs⟩
        · obtain ⟨c, n, hn, hc⟩ := h.course i hp
          exact ⟨c, n, hn, hrun, (regs_receive_running hp).trans hc.2⟩
        · -- it begins at the trampoline
          refine ⟨s.regs i, 0, by decide, hrun, hregs.trans ?_⟩
          rw [vector_of_allowed ht, coreAt_zero]
      · rw [phase_receive, if_neg hi] at hrun
        obtain ⟨c, n, hn, hc⟩ := h.course i hrun
        refine ⟨c, n, hn, ?_, (regs_receive_of_ne hi).trans hc.2⟩
        exact phase_receive.trans ((if_neg hi).trans hrun)
  · change (s.turn cpu E id).Inv A T entry cache
    rcases h.turn_cases cpu hentry id with hturn | ⟨c, n, m, hn, hc, hm, -, hturn⟩
    · rwa [hturn]
    · rw [hturn]
      refine ⟨hm, h.alive, fun i hrun => ?_⟩
      by_cases hi : i = id
      · subst hi
        exact ⟨c, n + 1, hn, hrun, Function.update_self ..⟩
      · obtain ⟨c', n', hn', hc'⟩ := h.course i hrun
        exact ⟨c', n', hn', hrun, (Function.update_of_ne hi _ _).trans hc'.2⟩
  · rcases hm with rfl | rfl
    · exact ⟨h.ready.kept ht.kept, h.alive, h.course⟩
    · exact ⟨h.ready.kept ht, h.alive, h.course⟩
  · rwa [hsame]

theorem inv_run (hentry : InFriend entry) (h : s.Inv A T entry cache) {ts : List Move}
    (hts : Meets (step cpu E cache) (Allowed T) s ts) : (run (step cpu E cache) s ts).Inv A T entry cache :=
  Lib.run_induct_of _ h (fun _ _ hs ht => inv_step hentry hs ht) ts hts

/-! ## Where a core is -/

theorem phase_step (hentry : InFriend entry) (h : s.Inv A T entry cache) (t : Move) (id : Int) :
    (s.step cpu E cache t).phase id = (t.signalTo id).elim (s.phase id) (s.phase id).receive := by
  rcases step_cases E cpu cache s t with ⟨mode, i, rfl⟩ | ⟨i, rfl⟩ | ⟨m, rfl | rfl⟩ | ⟨hsame, hnone, -⟩
  · change (s.receive cache i mode).phase id = _
    rw [phase_receive, Move.signalTo, ApicOp.signalTo]
    by_cases hi : id = i
    · subst hi
      rw [if_pos rfl, if_pos rfl, Option.elim_some]
    · rw [if_neg hi, if_neg (Ne.symm hi), Option.elim_none]
  · change (s.turn cpu E i).phase id = s.phase id
    rcases h.turn_cases cpu hentry i with hturn | ⟨c, n, m, -, -, -, -, hturn⟩
    · rw [hturn]
    · rw [hturn]
  · rfl
  · rfl
  · rw [hsame, (hnone id).1, Option.elim_none]

/-- **Where a core is follows from the interrupts it got.** -/
theorem phase_run (hentry : InFriend entry) (h : s.Inv A T entry cache) (id : Int) {ts : List Move}
    (hts : Meets (step cpu E cache) (Allowed T) s ts) :
    (run (step cpu E cache) s ts).phase id = (ts.filterMap (Move.signalTo id)).foldl Phase.receive (s.phase id) := by
  induction ts using List.reverseRecOn with
  | nil => rfl
  | append_singleton ts t ih =>
      have hpre := hts.mono _ (List.prefix_append ts [t])
      rw [Lib.run_concat, phase_step hentry (inv_run hentry h hpre), ih hpre, List.filterMap_append, List.foldl_append]
      cases hsig : t.signalTo id <;> simp [hsig]

variable (cpu) in
/-- The turns of one core take it through the trampoline; those of the others do not matter. -/
theorem course_step (hentry : InFriend entry) (hI : s.Inv A T entry cache) (h : s.OnCourse A entry cache id c n)
    (hn : n ≤ 31) {t : Move} (hsig : t.signalTo id = none) :
    (s.step cpu E cache t).OnCourse A entry cache id c (if t.isTurn id = true then min 31 (n + 1) else n) := by
  refine ⟨by rw [phase_step hentry hI, hsig]; exact h.1, ?_⟩
  rcases step_cases E cpu cache s t with ⟨mode, i, rfl⟩ | ⟨i, rfl⟩ | ⟨m, rfl | rfl⟩ | ⟨hsame, hnone, -⟩
  · have hi : id ≠ i := by
      rintro rfl
      rw [Move.signalTo, ApicOp.signalTo, if_pos rfl] at hsig
      cases hsig
    exact (regs_receive_of_ne hi).trans h.2
  · change (s.turn cpu E i).regs id = _
    by_cases hi : i = id
    · subst hi
      rw [Move.isTurn, beq_self_eq_true, if_pos rfl]
      rcases Nat.lt_or_eq_of_le hn with hlt | rfl
      · obtain ⟨m, -, -, hturn⟩ := turn_of_course cpu hI.ready hentry h hlt
        rw [hturn, min_eq_right (by omega)]
        exact Function.update_self ..
      · rw [turn_of_left hentry h]
        exact h.2
    · rw [Move.isTurn, beq_eq_false_iff_ne.mpr hi, if_neg (by decide), ← h.2]
      rcases hI.turn_cases cpu hentry i with hturn | ⟨c', n', m, -, -, -, -, hturn⟩
      · rw [hturn]
      · rw [hturn]
        exact Function.update_of_ne (Ne.symm hi) _ _
  · exact h.2
  · exact h.2
  · rw [hsame, (hnone id).2, if_neg Bool.false_ne_true]
    exact h.2

/-- **How far a core has come follows from its turns.** -/
theorem course_run (hentry : InFriend entry) (hI : s.Inv A T entry cache) (h : s.OnCourse A entry cache id c n)
    (hn : n ≤ 31) {ts : List Move} (hts : Meets (step cpu E cache) (Allowed T) s ts)
    (hsig : ts.filterMap (Move.signalTo id) = []) :
    (run (step cpu E cache) s ts).OnCourse A entry cache id c (min 31 (n + ts.countP (Move.isTurn id))) := by
  induction ts using List.reverseRecOn with
  | nil =>
      rw [List.countP_nil, Nat.add_zero, min_eq_right hn]
      exact h
  | append_singleton ts t ih =>
      have hpre := hts.mono _ (List.prefix_append ts [t])
      rw [List.filterMap_append, List.append_eq_nil_iff] at hsig
      have hnone : t.signalTo id = none := List.filterMap_eq_nil_iff.mp hsig.2 t (List.mem_singleton_self t)
      have hstep := course_step cpu hentry (inv_run hentry hI hpre) (ih hpre hsig.1) (min_le_left _ _) hnone
      rw [Lib.run_concat, List.countP_append, List.countP_singleton]
      convert hstep using 1
      split <;> omega

/-! ## What the cores do to memory -/

theorem mem_step (hentry : InFriend entry) (h : s.Inv A T entry cache) {m : Bytes} (hm : SameButMarks A T m s.mem)
    {t : Move} (ht : Allowed T s t) : SameButMarks A T (Move.stores m t) (s.step cpu E cache t).mem := by
  rcases step_cases E cpu cache s t with ⟨mode, i, rfl⟩ | ⟨i, rfl⟩ | ⟨m', rfl | rfl⟩ | ⟨hsame, -, hstores⟩
  · exact hm
  · change SameButMarks A T m (s.turn cpu E i).mem
    rcases h.turn_cases cpu hentry i with hturn | ⟨c, n, m', -, -, -, hsame, hturn⟩
    · rwa [hturn]
    · rw [hturn]
      exact fun a ha => (hm a ha).trans (hsame a ha)
  · exact fun a ha => (hm a ha).trans (ht a)
  · exact fun _ _ => .inl rfl
  · rwa [hsame, hstores]

/-- **The cores write nothing but accessed bits and flags.** -/
theorem mem_run (hentry : InFriend entry) (h : s.Inv A T entry cache) {ts : List Move}
    (hts : Meets (step cpu E cache) (Allowed T) s ts) :
    SameButMarks A T (ts.foldl Move.stores s.mem) (run (step cpu E cache) s ts).mem := by
  induction ts using List.reverseRecOn with
  | nil => exact fun _ _ => .inl rfl
  | append_singleton ts t ih =>
      have hpre := hts.mono _ (List.prefix_append ts [t])
      rw [Lib.run_concat, List.foldl_append]
      exact mem_step hentry (inv_run hentry h hpre) (ih hpre) (hts ts t (List.prefix_refl _))

end Cores

/-! ## After `setup` -/

/-- The core begins with the friend: in 64-bit mode, by the page tables of `Init`, and without interrupts. -/
structure AtEntry (entry : BitVec 64) (s : Core) : Prop where
  rip : s.rip = entry
  size : s.size = .code64
  paging : s.paging = true
  cr3 : s.cr3 = INITIAL_PML4T
  interrupts : s.interrupts = false

theorem atEntry_coreAt (A : Assembly E) (entry : BitVec 64) (x : Cache) (c : Core) : AtEntry entry (A.coreAt entry x c 31) :=
  ⟨rfl, size_entry, paging_of (v := 0x80000011) rfl (by decide), rfl, rfl⟩

theorem inTrampoline_or_atEntry (cpu : Processor) (hR : Ready A T entry s.mem) (hentry : InFriend entry) (hn : n ≤ 31)
    (x : Cache) :
    inTrampoline (A.coreAt entry x c n) = true ∨ AtEntry entry (A.coreAt entry x c n) := by
  rcases Nat.lt_or_eq_of_le hn with hlt | rfl
  · exact .inl (step_course cpu hR hentry x c hlt).1
  · exact .inr (atEntry_coreAt A entry x c)

end

section Setup
variable {E : Encoding} (A : Assembly E) (cpu : Processor) (L : Layout) (e : ElfLoader) {ans : Answers} {p q : Process}
variable (hwrap : ∀ r ∈ e.ranges, ¬ r.Overflows) (hentry : InFriend e.getEntry)
variable (hsetup : setup L A.bin e ans p = some (0, q)) (cache : Int → Cache) (regs : Int → Core)

include hwrap hsetup in
theorem inv_initial : (Cores.initial q.phys regs).Inv A L.toTables e.getEntry cache := by
  refine ⟨?_, fun _ => nofun, fun _ => nofun⟩
  change Ready A L.toTables e.getEntry q.phys
  rw [(setup_success hwrap hsetup).2.2]
  exact ready_started A L e p.phys

include hwrap hentry hsetup

/-- **No core faults in the trampoline**: whatever cores `cpu_start` starts and whenever, and in whatever order they and
the others move, a core that runs is in the trampoline or has come to the entry point of the friend, and no core has
written anything but the accessed bits of descriptors and the accessed and dirty flags of page table entries. -/
theorem trampoline_safe {ts : List Move}
    (hts : Meets (Cores.step cpu E cache) (Allowed L.toTables) (Cores.initial q.phys regs) ts) :
    let st := run (Cores.step cpu E cache) (Cores.initial q.phys regs) ts
    (∀ id, st.phase id ≠ .shutdown) ∧
    (∀ id, st.phase id = .running → inTrampoline (st.regs id) = true ∨ AtEntry e.getEntry (st.regs id)) ∧
    SameButMarks A L.toTables (ts.foldl Move.stores q.phys) st.mem := by
  intro st
  have hI := inv_initial A L e hwrap hsetup cache regs
  have hst : st.Inv A L.toTables e.getEntry cache := Cores.inv_run hentry hI hts
  refine ⟨hst.alive, fun id hrun => ?_, Cores.mem_run hentry hI hts⟩
  obtain ⟨c, n, hn, hc⟩ := hst.course id hrun
  rw [hc.2]
  exact inTrampoline_or_atEntry cpu hst.ready hentry hn (cache id)

/-- A core that runs comes to the friend in 31 turns. -/
theorem enters_of_running {us vs : List Move} {id : Int}
    (hts : Meets (Cores.step cpu E cache) (Allowed L.toTables) (Cores.initial q.phys regs) (us ++ vs))
    (hrun : (run (Cores.step cpu E cache) (Cores.initial q.phys regs) us).phase id = .running)
    (hvs : vs.filterMap (Move.signalTo id) = []) (hturns : 31 ≤ vs.countP (Move.isTurn id)) :
    let st := run (Cores.step cpu E cache) (Cores.initial q.phys regs) (us ++ vs)
    st.phase id = .running ∧ AtEntry e.getEntry (st.regs id) ∧
    ∀ a, InFriend a → ∀ use, cpu.translate st.mem (st.regs id) use a = some a := by
  intro st
  have hI := inv_initial A L e hwrap hsetup cache regs
  have hsI := Cores.inv_run hentry hI (hts.mono _ (List.prefix_append us vs))
  obtain ⟨c, n, hn, hc⟩ := hsI.course _ hrun
  have hcourse := Cores.course_run hentry hsI hc hn (hts.after _) hvs
  rw [← Lib.run_append, min_eq_left (by omega)] at hcourse
  have hready : Ready A L.toTables e.getEntry st.mem := (Cores.inv_run hentry hI hts).ready
  refine ⟨hcourse.1, ?_, fun a ha use => ?_⟩
  · rw [hcourse.2]
    exact atEntry_coreAt A e.getEntry _ c
  · rw [hcourse.2]
    exact translate_friend hready (plain_of_paged rfl rfl rfl) use ha

/-- **A started core enters the friend**: on a machine with integrated APICs whose acknowledged interrupts arrive, once
`cpu_start` has returned 0 with the INIT and the STARTUPs acknowledged and the core has had 31 turns. -/
theorem started_enters_friend {P : Topology} {online : Nat → Bool} {i : Nat} {t : Attempt}
    (hzero : (cpuStart P ⟨online, []⟩ i t).1 = 0) (hint : t.apic.integrated = true) (hthrough : t.apic.Through)
    {us vs : List Move} {sent : List (IcrMode × Bool)}
    (hts : Meets (Cores.step cpu E cache) (Allowed L.toTables) (Cores.initial q.phys regs) (us ++ vs))
    (hus : sent <:+ us.filterMap (Move.sentTo (P.apicid i)))
    (hsent : sent.map Prod.fst = (cpuStart P ⟨online, []⟩ i t).2.ops.filterMap (ApicOp.signalTo (P.apicid i)))
    (hhonest : t.apic.Honest sent)
    (hvs : vs.filterMap (Move.signalTo (P.apicid i)) = []) (hturns : 31 ≤ vs.countP (Move.isTurn (P.apicid i))) :
    let st := run (Cores.step cpu E cache) (Cores.initial q.phys regs) (us ++ vs)
    st.phase (P.apicid i) = .running ∧ AtEntry e.getEntry (st.regs (P.apicid i)) ∧
    ∀ a, InFriend a → ∀ use, cpu.translate st.mem (st.regs (P.apicid i)) use a = some a := by
  refine enters_of_running A cpu L e hwrap hentry hsetup cache regs hts ?_ hvs hturns
  have hI := inv_initial A L e hwrap hsetup cache regs
  -- the interrupts of `cpu_start` are INIT and at least one STARTUP
  obtain ⟨hp, hd, h0, ha, -⟩ := cpuStart_eq_zero_iff.mp hzero
  obtain ⟨old, hold⟩ := hus
  obtain ⟨k, hk, hpos⟩ := wakeup_signals t.apic (P.apicid i) TRAMPOLINE_ADDR
  rw [cpuStart_woken hp hd h0 ha, List.nil_append, hk] at hsent
  rw [Cores.phase_run hentry hI (P.apicid i) (hts.mono _ (List.prefix_append us vs)), filterMap_signalTo, ← hold,
    arrived_append, List.foldl_append]
  exact Phase.receive_wakeup _ (hpos hint) hhonest hthrough.1 (hthrough.acked hint) hsent

end Setup

/-! ### Two cores -/

def sampleProcessor : Processor := ⟨sampleMmu, 0xb0, by decide⟩

def sampleCore : Core :=
  let seg : Segment := ⟨0, 0, 0xffff, false, false⟩
  ⟨0, 0, 0, 0, 0, false, 0x10, 0, 0, 0, seg, seg, seg, 0, 0⟩

def sampleTopology : Topology := ⟨fun _ => true, fun i => i⟩

def sampleAttempt : Attempt := ⟨true, ⟨true, 6, fun _ => 0, fun _ => 0⟩⟩

theorem sampleAttempt_through : sampleAttempt.apic.Through := ⟨⟨rfl, fun _ => rfl⟩, rfl, rfl⟩

theorem honest_of_all {a : Apic} {sent : List (IcrMode × Bool)} (h : sent.all Prod.snd = true) : a.Honest sent :=
  fun _ _ hx _ => List.all_eq_true.mp h _ (List.mem_of_getElem? hx)

def sampleOps (i : Nat) : List ApicOp := (cpuStart sampleTopology ⟨fun _ => true, []⟩ i sampleAttempt).2.ops

def sampleStart : List Move := (sampleOps 1).map (.apic · true) ++ (sampleOps 2).map (.apic · true)

def sampleTurns : List Move := (List.replicate 31 [Move.core 1, Move.core 2]).flatten

theorem meets_sample (s : Cores) :
    Meets (Cores.step sampleProcessor sampleEncoding fun _ => .on) (Allowed sampleTables) s (sampleStart ++ sampleTurns) := by
  apply Lib.meets_of_forall
  intro t ht s
  rcases List.mem_append.mp ht with ht | ht
  · rcases List.mem_append.mp ht with ht | ht
    · obtain ⟨op, hop, rfl⟩ := List.mem_map.mp ht
      exact ⟨_, _, _, _, hop⟩
    · obtain ⟨op, hop, rfl⟩ := List.mem_map.mp ht
      exact ⟨_, _, _, _, hop⟩
  · obtain ⟨l, hl, ht⟩ := List.mem_flatten.mp ht
    rw [List.eq_of_mem_replicate hl] at ht
    simp only [List.mem_cons, List.not_mem_nil, or_false] at ht
    rcases ht with rfl | rfl <;> trivial

theorem sample_setup : (∀ r ∈ ElfLoader.bssImage.ranges, ¬ r.Overflows) ∧ InFriend ElfLoader.bssImage.getEntry ∧
    ∃ ans q, setup sampleLayout sampleAssembly.bin ElfLoader.bssImage ans ⟨fun _ => 0, fun _ => none⟩ = some (0, q) := by
  have hranges : ElfLoader.bssImage.ranges = [⟨0x100001000, 16⟩, ⟨0x100001010, 16⟩] := by decide +kernel
  have hhead : ElfLoader.bssImage.headerOk = true := by decide +kernel
  have hwrap : ∀ r ∈ ElfLoader.bssImage.ranges, ¬ r.Overflows := by
    rw [hranges]
    decide
  refine ⟨hwrap, inFriend_iff.mpr (by decide +kernel), exists_setup sampleLayout hwrap (size_bin sampleAssembly) ?_⟩
  rw [ElfLoader.deploy_accepts, hhead, hranges]
  decide

theorem two_cores_safe :
    ∃ q : Process,
      let st := run (Cores.step sampleProcessor sampleEncoding fun _ => .on)
        (Cores.initial q.phys fun _ => sampleCore) (sampleStart ++ sampleTurns)
      (∀ id, st.phase id ≠ .shutdown) ∧
      (∀ id, st.phase id = .running →
        inTrampoline (st.regs id) = true ∨ AtEntry ElfLoader.bssImage.getEntry (st.regs id)) ∧
      SameButMarks sampleAssembly sampleTables ((sampleStart ++ sampleTurns).foldl Move.stores q.phys) st.mem := by
  obtain ⟨hwrap, hentry, ans, q, hsetup⟩ := sample_setup
  exact ⟨q, trampoline_safe sampleAssembly sampleProcessor sampleLayout _ hwrap hentry hsetup _ _ (meets_sample _)⟩

theorem two_cores_enter :
    ∃ q : Process,
      let st := run (Cores.step sampleProcessor sampleEncoding fun _ => .on)
        (Cores.initial q.phys fun _ => sampleCore) (sampleStart ++ sampleTurns)
      let id := sampleTopology.apicid 1
      st.phase id = .running ∧ AtEntry ElfLoader.bssImage.getEntry (st.regs id) ∧
      ∀ a, InFriend a → ∀ use, sampleProcessor.translate st.mem (st.regs id) use a = some a := by
  obtain ⟨hwrap, hentry, ans, q, hsetup⟩ := sample_setup
  have hzero : (cpuStart sampleTopology ⟨fun _ => true, []⟩ 1 sampleAttempt).1 = 0 := by decide +kernel
  have hsent : (sampleStart.filterMap (Move.sentTo (sampleTopology.apicid 1))).map Prod.fst =
      (sampleOps 1).filterMap (ApicOp.signalTo (sampleTopology.apicid 1)) := by decide +kernel
  exact ⟨q, started_enters_friend sampleAssembly sampleProcessor sampleLayout _ hwrap hentry hsetup _ _ hzero rfl
    sampleAttempt_through (meets_sample _) List.suffix_rfl hsent (honest_of_all (by decide +kernel)) (by decide +kernel)
    (by decide +kernel)⟩

end Toshokan.Hakase
