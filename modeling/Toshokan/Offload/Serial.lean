import Toshokan.Offload.Machine
import Mathlib.Data.List.TakeDrop

/-!
# What `OFFLOAD` is for: the blocks one after another

* `Serial` : hakase's state, the cores' contexts and local states, and how many blocks each core has had executed;
* `Serial.exec`, `Serial.runs` : one request, and a list of requests, with no concurrency at all;
* `session` : the ten events of one request, `sessions` : those of a list of requests;
* `Complete` : a record of finished `TryReceive` calls, each of them empty or with a single block.
-/

namespace Toshokan.Offload

variable {ι S H L : Type}

structure Req (ι S : Type) where
  core : ι
  site : S
  deriving DecidableEq

structure Serial (ι H L : Type) where
  h : H
  ctx : ι → Ctx
  loc : ι → L
  count : ι → Nat

namespace Serial

variable (P : Program ι S H L)

def init (h : H) (loc : ι → L) : Serial ι H L := ⟨h, P.ctx₀, loc, fun _ => 0⟩

/-- The registers and local state with which core `i` comes to its next `_OFFLOAD`. -/
def before (σ : Serial ι H L) (i : ι) : Ctx × L := P.own i (σ.count i) (σ.ctx i) (σ.loc i)

/-- What the block at `s` makes of it. -/
def after (σ : Serial ι H L) (i : ι) (s : S) : H × Ctx × L :=
  P.code s σ.h (σ.before P i).1 (σ.before P i).2

/-- Every core runs on its own stack. -/
def Owned (σ : Serial ι H L) : Prop := ∀ i, P.owner (σ.ctx i).rsp = some i

theorem owner_before {σ : Serial ι H L} (hσ : σ.Owned P) (i : ι) : P.owner (σ.before P i).1.rsp = some i :=
  P.owner_own i _ _ _ (hσ i)

theorem owner_after {σ : Serial ι H L} (hσ : σ.Owned P) (i : ι) (s : S) :
    P.owner (σ.after P i s).2.1.rsp = some i := by
  rw [after, P.code_rsp]
  exact owner_before P hσ i

theorem owned_init (h : H) (loc : ι → L) : (init P h loc).Owned P := P.owner_ctx₀

variable [DecidableEq ι]

def exec (σ : Serial ι H L) (r : Req ι S) : Serial ι H L where
  h := (σ.after P r.core r.site).1
  ctx := Function.update σ.ctx r.core (σ.after P r.core r.site).2.1
  loc := Function.update σ.loc r.core (σ.after P r.core r.site).2.2
  count := Function.update σ.count r.core (σ.count r.core + 1)

def runs (σ : Serial ι H L) (rs : List (Req ι S)) : Serial ι H L := rs.foldl (exec P) σ

@[simp] theorem runs_nil (σ : Serial ι H L) : σ.runs P [] = σ := rfl

@[simp] theorem runs_cons (σ : Serial ι H L) (r : Req ι S) (rs : List (Req ι S)) :
    σ.runs P (r :: rs) = (σ.exec P r).runs P rs := rfl

theorem runs_concat (σ : Serial ι H L) (rs : List (Req ι S)) (r : Req ι S) :
    σ.runs P (rs ++ [r]) = (σ.runs P rs).exec P r := by
  rw [runs, List.foldl_append]
  rfl

theorem Owned.exec {σ : Serial ι H L} (hσ : σ.Owned P) (r : Req ι S) : (σ.exec P r).Owned P := by
  intro i
  by_cases hi : i = r.core
  · subst hi
    simp only [Serial.exec, Function.update_self]
    exact owner_after P hσ r.core r.site
  · simp only [Serial.exec, Function.update_of_ne hi]
    exact hσ i

theorem owned_runs {σ : Serial ι H L} (hσ : σ.Owned P) (rs : List (Req ι S)) : (σ.runs P rs).Owned P := by
  induction rs generalizing σ with
  | nil => exact hσ
  | cons r rs ih => exact ih (hσ.exec P r)

end Serial

/-! ## The events of a request -/

section Sessions
variable [DecidableEq ι] (P : Program ι S H L)

/-- The request of core `i` at `s`, from acquiring `_lock` to releasing it: hakase starts the block with the context
the core saved, and the core resumes with the context hakase saved after the block. -/
def session (σ : Serial ι H L) (i : ι) (s : S) : List (Event ι S) :=
  let id := some (i, σ.count i)
  let c := (σ.before P i).1
  let d := (σ.after P i s).2.1
  [.acquire (.friend i) id s, .save (.friend i) id s c (P.addr (.waitRet s)), .post (.friend i),
    .take .hakase, .start .hakase id s c (P.addr (.waitRet s)), .exec .hakase id s,
    .finish .hakase id s d (P.addr (.setRet s)), .answer .hakase, .resume (.friend i) id s d (P.addr (.setRet s)) 1,
    .release (.friend i) id s]

/-- The requests `rs`, one after another from `σ`. -/
def sessions (σ : Serial ι H L) : List (Req ι S) → List (Event ι S)
  | [] => []
  | r :: rs => session P σ r.core r.site ++ sessions (σ.exec P r) rs

theorem sessions_concat (σ : Serial ι H L) (rs : List (Req ι S)) (r : Req ι S) :
    sessions P σ (rs ++ [r]) = sessions P σ rs ++ session P (σ.runs P rs) r.core r.site := by
  induction rs generalizing σ with
  | nil => simp [sessions]
  | cons r' rs ih => rw [List.cons_append, sessions, sessions, ih, List.append_assoc, Serial.runs_cons]

end Sessions

/-- The order in which `_lock` was acquired. -/
def acquired : List (Event ι S) → List (Req ι S)
  | [] => []
  | .acquire (.friend i) _ s :: l => ⟨i, s⟩ :: acquired l
  | _ :: l => acquired l

theorem acquired_append (l m : List (Event ι S)) : acquired (l ++ m) = acquired l ++ acquired m := by
  induction l with
  | nil => rfl
  | cons e l ih =>
      rw [List.cons_append]
      match e with
      | .acquire (.friend i) _ s => simp only [acquired, ih, List.cons_append]
      | .acquire .hakase _ _ | .save .. | .post .. | .take .. | .start .. | .exec .. | .finish .. | .answer .. | .resume ..
      | .release .. => simp only [acquired, ih]

variable [DecidableEq ι]

theorem acquired_sessions (P : Program ι S H L) (σ : Serial ι H L) (rs : List (Req ι S)) :
    acquired (sessions P σ rs) = rs := by
  induction rs generalizing σ with
  | nil => rfl
  | cons r rs ih =>
      rw [sessions, acquired_append, ih]
      rfl

/-- The call sites of core `i` among the requests, in order. -/
def sitesOf (i : ι) (rs : List (Req ι S)) : List S := (rs.filter fun r => r.core = i).map Req.site

/-! ## `TryReceive` calls -/

/-- Finished calls of `TryReceive` by hakase: each returned with the context it was called with, `false` after no
block or `true` after one. -/
inductive Complete : List (Call ι S) → Prop
  | nil : Complete []
  | empty {l : List (Call ι S)} (h : Complete l) (c : Ctx) :
      Complete (l ++ [.enter .hakase c, .leave .hakase c false])
  | one {l : List (Call ι S)} (h : Complete l) (c : Ctx) (id : Option (ι × Nat)) (s : S) :
      Complete (l ++ [.enter .hakase c, .exec .hakase id s, .leave .hakase c true])

/-- A call with the context `c` is under way and has recorded `ex`. -/
def Calling (l : List (Call ι S)) (c : Ctx) (ex : List (Call ι S)) : Prop :=
  ∃ l₀, Complete l₀ ∧ l = l₀ ++ .enter .hakase c :: ex

end Toshokan.Offload
