import Toshokan.Hakase.Setup

/-!
# `FriendLoader/version.c` and the checks of `setup`

The module shows its version in a file of sysfs; hakase reads the file and looks for its own version in it, and it looks
for the boot parameters in the command line of the kernel.

* `Kmod.callRead` : the driver's side of a read, which checks nothing; `Sysfs` : the kernel, which is assumed to ask it
  for bytes of the array only; `Kmod.read` : a read of the file; `fread` : the C library, which may split a read in any
  way;
* `fread_sysfs` : what hakase gets;
* `checkFile_iff` : when a check passes; `handshake_iff` : when hakase accepts a module and a command line.
-/

namespace Toshokan.Hakase

/-! ## Reading the version -/

/-- A loaded module, by its `kmod_version_string`. -/
structure Kmod where
  version : List Char
  no_nul : ∀ c ∈ version, (c != '\x00') = true

/-- The array, with its terminating zero. -/
def Kmod.array (k : Kmod) : List Char := k.version ++ ['\x00']

/-- `.size = sizeof(kmod_version_string)` of the attribute. -/
def Kmod.size (k : Kmod) : Nat := k.array.length

/-- `call_read`: it copies from the array whatever it is asked for. `none` is a read outside of the array. -/
def Kmod.callRead (k : Kmod) (off count : Nat) : Option (List Char) :=
  if off + count ≤ k.array.length then some ((k.array.drop off).take count) else none

/-- The kernel, between the file and the driver: for a read of `n` bytes at `off` it asks `call_read` for `count off n`
bytes. It is assumed to ask for nothing behind the size of the attribute, and for something as long as there is
something. -/
structure Sysfs (size : Nat) where
  count : Nat → Nat → Nat
  inside : ∀ off n, 0 < count off n → off + count off n ≤ size
  count_pos : ∀ off n, 0 < n → off < size → 0 < count off n

def Kmod.read (k : Kmod) (f : Sysfs k.size) (off n : Nat) : Option (List Char) :=
  if f.count off n = 0 then some [] else k.callRead off (f.count off n)

/-- `fread`, which wants `want` bytes and has `got`: it reads on, asking for as many bytes as it likes, until it has them
or gets none. `asks` are the sizes it asks for. -/
def fread (read : Nat → Nat → Option (List Char)) (want : Nat) : List Nat → List Char → Option (List Char)
  | [], got => some got
  | ask :: asks, got =>
      if want ≤ got.length then some got
      else (read got.length ask).bind fun bytes => if bytes = [] then some got else fread read want asks (got ++ bytes)

section
variable {k : Kmod} {want : Nat} {asks : List Nat}

theorem read_eq (f : Sysfs k.size) (off n : Nat) : k.read f off n = some ((k.array.drop off).take (f.count off n)) := by
  unfold Kmod.read
  split
  · rename_i h
    rw [h, List.take_zero]
  · rename_i h
    exact if_pos (f.inside off n (Nat.pos_of_ne_zero h))

variable (want) in
/-- **What hakase gets** is the beginning of the array, as much of it as it wants. -/
theorem fread_sysfs (f : Sysfs k.size) (hasks : ∀ n ∈ asks, 0 < n) {m : Nat} (hlen : k.size - m < asks.length) :
    ∃ n, fread (k.read f) want asks (k.array.take m) = some (k.array.take n) ∧ (want ≤ n ∨ k.size ≤ n) := by
  have hsize : k.array.length = k.size := rfl
  induction asks generalizing m with
  | nil => exact absurd hlen (Nat.not_lt_zero _)
  | cons ask asks ih =>
      rw [fread]
      split
      · rename_i hwant
        rw [List.length_take] at hwant
        exact ⟨m, rfl, by omega⟩
      · rw [List.length_take, read_eq, Option.bind_some]
        -- it gets nothing at the end of the file only
        by_cases hend : k.size ≤ m
        · rw [min_eq_right (hsize.trans_le hend), List.drop_length, List.take_nil, if_pos rfl]
          exact ⟨m, rfl, .inr hend⟩
        · have hmin : min m k.array.length = m := by omega
          have hpos := f.count_pos m ask (hasks ask List.mem_cons_self) (by omega)
          rw [hmin, if_neg, ← List.take_add]
          · refine ih (fun n hn => hasks n (List.mem_cons_of_mem _ hn)) ?_
            rw [List.length_cons] at hlen
            omega
          · rw [List.take_eq_nil_iff, List.drop_eq_nil_iff]
            omega

end

/-! ## The checks -/

theorem strstr_iff {s text : List Char} : strstr s text = true ↔ text <:+: s := by
  unfold strstr
  rw [List.any_eq_true]
  constructor
  · rintro ⟨t, ht, hp⟩
    exact (List.isPrefixOf_iff_prefix.mp hp).isInfix.trans ((List.mem_tails _ _).mp ht).isInfix
  · rintro ⟨l, r, h⟩
    refine ⟨text ++ r, (List.mem_tails _ _).mpr ⟨l, by rw [← List.append_assoc, h]⟩, ?_⟩
    exact List.isPrefixOf_iff_prefix.mpr (List.prefix_append _ _)

theorem checkFile_iff {text bytes : List Char} :
    checkFile text (some bytes) = 0 ↔ text <:+: (bytes.take 255).takeWhile (· != '\x00') := by
  unfold checkFile
  dsimp only
  rw [← strstr_iff]
  split
  · rename_i h
    exact iff_of_true rfl h
  · rename_i h
    exact iff_of_false (by decide) h

theorem takeWhile_take {l : List Char} (h : ∀ c ∈ l, (c != '\x00') = true) (rest : List Char) (n : Nat) :
    ((l ++ '\x00' :: rest).take n).takeWhile (· != '\x00') = l.take n := by
  have hl : ∀ c ∈ l.take n, (c != '\x00') = true := fun c hc => h c (List.mem_of_mem_take hc)
  rw [List.take_append, List.takeWhile_append_of_pos hl]
  cases n - l.length with
  | zero => simp
  | succ k => simp

/-- **When hakase accepts.** However the kernel and the C library split their reads, `check_version` accepts the module
iff the version hakase was built with occurs in the first 255 characters of the module's version; `check_bootparam`
accepts a command line iff the parameters occur, as they are written there, in its first 255 characters. -/
theorem handshake_iff (k : Kmod) (f : Sysfs k.size) (asks : List Nat) (hasks : ∀ n ∈ asks, 0 < n)
    (hlen : k.size < asks.length) (cmdline : List Char) (hcmd : ∀ c ∈ cmdline, (c != '\x00') = true) :
    (∃ file, fread (k.read f) 255 asks [] = some file ∧
      (checkVersion (some file) = 0 ↔ kmodVersionString <:+: k.version.take 255)) ∧
    (checkBootparam (some cmdline) = 0 ↔ "memmap=8K$0x70000 memmap=1G$4G".toList <:+: cmdline.take 255) := by
  constructor
  · obtain ⟨n, hn, hle⟩ := fread_sysfs 255 f hasks (m := 0) (by omega)
    have htake : (k.array.take n).take 255 = k.array.take 255 := by
      unfold Kmod.size at hle
      rw [List.take_take, List.take_eq_take_iff]
      omega
    refine ⟨_, hn, ?_⟩
    rw [checkVersion, checkFile_iff, htake, Kmod.array, takeWhile_take k.no_nul]
  · rw [checkBootparam, checkFile_iff, List.takeWhile_eq_self_iff.mpr fun c hc => hcmd c (List.mem_of_mem_take hc)]

def Sysfs.whole (size : Nat) : Sysfs size where
  count off n := min n (size - off)
  inside off n := by omega
  count_pos off n := by omega

/-- A module of another version is accepted, read one byte at a time; a command line whose parameters are in the other
order is not. -/
theorem handshake_other_version :
    let k : Kmod := ⟨"v0.051".toList, List.all_eq_true.mp (by decide)⟩
    (∃ file, fread (k.read (.whole k.size)) 255 (List.replicate 8 1) [] = some file ∧ checkVersion (some file) = 0) ∧
      checkBootparam (some "memmap=1G$4G memmap=8K$0x70000".toList) ≠ 0 := by
  intro k
  obtain ⟨⟨file, hf, hiff⟩, hboot⟩ := handshake_iff k (.whole k.size) (List.replicate 8 1)
    (fun n hn => by rw [List.eq_of_mem_replicate hn]; decide) (by decide) "memmap=1G$4G memmap=8K$0x70000".toList
    (List.all_eq_true.mp (by decide))
  refine ⟨⟨file, hf, hiff.mpr (by decide)⟩, fun h => absurd (hboot.mp h) (by decide)⟩

end Toshokan.Hakase
