import Brutal.Lib.Memory
import Mathlib.Algebra.Group.Int.Defs
import Mathlib.Algebra.Group.Nat.Defs
import Mathlib.Data.Int.Order.Basic
import Mathlib.Order.Basic

/-!
# Strings of the C library

`stdc-ansi/string.c`.  The memory is a function of the address; a loop that looks for a terminator
has a number of turns that it may take.  Whether `char` is signed depends on the machine: it is on
x86-64 and is not on RISC-V.
-/

namespace Brutal.Libc

open Lib

section Code

variable (signed : Bool) (memory : ℕ → UInt8)

/-- The value of a `char`. -/
def charVal (byte : UInt8) : ℤ :=
  match signed with
  | true => if 128 ≤ byte.toNat then byte.toNat - 256 else byte.toNat
  | false => byte.toNat

/-- The loop of `strlen` from index `i` on. -/
def strlenLoop (s : ℕ) : ℕ → ℕ → Option ℕ
  | 0, _ => none
  | turns + 1, i => if memory (s + i) ≠ 0 then strlenLoop s turns (i + 1) else some (i + 1)

def strlen (turns s : ℕ) : Option ℕ := strlenLoop memory s turns 0

/-- The loop of `strcpy` from index `i` on. -/
def strcpyLoop (s1 s2 : ℕ) : ℕ → (ℕ → UInt8) → ℕ → Option (ℕ → UInt8)
  | 0, _, _ => none
  | turns + 1, memory, i =>
    if memory (s2 + i) ≠ 0 then
      strcpyLoop s1 s2 turns (Function.update memory (s1 + i) (memory (s2 + i))) (i + 1)
    else some memory

/-- The memory after `strcpy`. -/
def strcpy (turns s1 s2 : ℕ) : Option (ℕ → UInt8) := strcpyLoop s1 s2 turns memory 0

/-- The memory after `strcat`. -/
def strcat (turns s1 s2 : ℕ) : Option (ℕ → UInt8) := do
  let l2 ← strlen memory turns s2
  let l1 ← strlen memory turns s1
  let s1 := s1 + l1
  let copied := (List.range l2).foldl
    (fun memory i ↦ Function.update memory (s1 + i) (memory (s2 + i))) memory
  return Function.update copied (s1 + l2) 0

/-- `memcmp`, which never moves on to the next byte. -/
def memcmp (s1 s2 : ℕ) : ℕ → ℤ
  | 0 => 0
  | n + 1 =>
    let diff := charVal signed (memory s1) - charVal signed (memory s2)
    if diff ≠ 0 then diff else memcmp s1 s2 n

def strcmp : ℕ → ℕ → ℕ → Option ℤ
  | 0, _, _ => none
  | turns + 1, s1, s2 =>
    if memory s1 = memory s2 ∧ memory s1 ≠ 0 then strcmp turns (s1 + 1) (s2 + 1)
    else some (charVal signed (memory s1) - charVal signed (memory s2))

def strncmp : ℕ → ℕ → ℕ → ℕ → Option ℤ
  | 0, _, _, _ => none
  | turns + 1, s1, s2, n =>
    if memory s1 = memory s2 ∧ memory s1 ≠ 0 ∧ n ≠ 0 then
      strncmp turns (s1 + 1) (s2 + 1) (n - 1)
    else if n = 0 then some 0
    else some (charVal signed (memory s1) - charVal signed (memory s2))

/-- The value of `pos` after the loop of `strrchr`, which goes below zero when `c` is not found. -/
def strrchrLoop (s : ℕ) (c : ℤ) : ℕ → ℕ
  | 0 => if charVal signed (memory s) ≠ c then 2 ^ 64 - 1 else 0
  | pos + 1 =>
    if charVal signed (memory (s + (pos + 1))) ≠ c then strrchrLoop s c pos else pos + 1

/-- `strrchr`; the pointer that it returns is `none` when it is null. -/
def strrchr (turns s : ℕ) (c : ℤ) : Option (Option ℕ) := do
  let len ← strlen memory turns s
  let pos := strrchrLoop signed memory s c len
  return if pos = len then none else some ((s + pos) % 2 ^ 64)

end Code

/-- At an address stand the bytes of a string and its terminator. -/
structure StringAt (memory : ℕ → UInt8) (addr : ℕ) (bytes : List UInt8) : Prop where
  nonzero : ∀ byte ∈ bytes, byte ≠ 0
  stored : readAt memory addr (bytes.length + 1) = bytes ++ [0]

/-- The first two bytes in which two sequences differ. -/
def firstPair : List UInt8 → List UInt8 → Option (UInt8 × UInt8)
  | x :: first, y :: second => if x = y then firstPair first second else some (x, y)
  | _, _ => none

/-- How two bytes that differ compare as `unsigned char`. -/
def pairOrder : Option (UInt8 × UInt8) → ℤ
  | none => 0
  | some (x, y) => x.toNat - y.toNat

/-- A comparison is zero when there is no difference, and else has the sign of the first one. -/
def Compares (result : ℤ) (pair : Option (UInt8 × UInt8)) : Prop :=
  (0 < result ↔ 0 < pairOrder pair) ∧ (result < 0 ↔ pairOrder pair < 0)

/-- Two bytes compare as `char` the way they do as `unsigned char`. -/
def SameHalf (signed : Bool) (x y : UInt8) : Prop :=
  signed = false ∨ (x.toNat < 128 ↔ y.toNat < 128)

/-- The last index up to a bound at which a property holds. -/
def lastIndex (p : ℕ → Prop) [DecidablePred p] : ℕ → Option ℕ
  | 0 => if p 0 then some 0 else none
  | bound + 1 => if p (bound + 1) then some (bound + 1) else lastIndex p bound

/-- A byte is the character `c`, which is converted to `char`. -/
def IsChar (c : ℤ) (byte : UInt8) : Prop := c % 256 = byte.toNat

instance (c : ℤ) (byte : UInt8) : Decidable (IsChar c byte) :=
  inferInstanceAs (Decidable (_ = _))

section Characters

variable {signed : Bool} {x y : UInt8}

theorem charVal_injective (h : charVal signed x = charVal signed y) : x = y := by
  have hx := x.toNat_lt
  have hy := y.toNat_lt
  apply UInt8.toNat_inj.mp
  cases signed with
  | false => exact Int.ofNat.inj h
  | true =>
    dsimp only [charVal] at h
    split at h <;> split at h <;> omega

/-- Comparing as `char` goes wrong only between the halves of the range of a byte. -/
theorem compares_char_iff (hne : x ≠ y) :
    Compares (charVal signed x - charVal signed y) (some (x, y)) ↔ SameHalf signed x y := by
  have hx := x.toNat_lt
  have hy := y.toNat_lt
  have hne' : x.toNat ≠ y.toNat := fun h ↦ hne (UInt8.toNat_inj.mp h)
  rw [Compares, pairOrder, SameHalf]
  cases signed with
  | false => exact iff_of_true ⟨Iff.rfl, Iff.rfl⟩ (Or.inl rfl)
  | true =>
    dsimp only [charVal]
    have hnot : (true = false ∨ (x.toNat < 128 ↔ y.toNat < 128)) ↔
        (x.toNat < 128 ↔ y.toNat < 128) := or_iff_right (by decide)
    rw [hnot]
    split <;> split <;> omega

/-- The comparison of two bytes that may be equal. -/
def charDiff (signed : Bool) : Option (UInt8 × UInt8) → ℤ
  | none => 0
  | some (x, y) => charVal signed x - charVal signed y

end Characters

section Strings

variable {signed : Bool} {memory : ℕ → UInt8} {addr s t : ℕ} {bytes S T : List UInt8}

namespace StringAt

theorem getElem? (h : StringAt memory addr bytes) {i : ℕ} (hi : i ≤ bytes.length) :
    (bytes ++ [0])[i]? = some (memory (addr + i)) := by
  rw [← h.stored, getElem?_readAt (Nat.lt_succ_of_le hi)]

theorem apply_length (h : StringAt memory addr bytes) : memory (addr + bytes.length) = 0 := by
  have hlast := h.getElem? (Nat.le_refl bytes.length)
  rw [List.getElem?_append_right (Nat.le_refl _), Nat.sub_self] at hlast
  exact (Option.some.inj hlast).symm

theorem getElem?_of_lt (h : StringAt memory addr bytes) {i : ℕ} (hi : i < bytes.length) :
    bytes[i]? = some (memory (addr + i)) := by
  rw [← h.getElem? (Nat.le_of_lt hi), List.getElem?_append_left hi]

theorem apply_ne_zero (h : StringAt memory addr bytes) {i : ℕ} (hi : i < bytes.length) :
    memory (addr + i) ≠ 0 :=
  h.nonzero _ (List.mem_of_getElem? (h.getElem?_of_lt hi))

theorem nil_iff : StringAt memory addr [] ↔ memory addr = 0 := by
  constructor
  · intro h
    exact h.apply_length
  · intro h
    refine ⟨fun _ hbyte ↦ absurd hbyte List.not_mem_nil, ?_⟩
    rw [← h]
    rfl

theorem cons_iff {byte : UInt8} : StringAt memory addr (byte :: bytes) ↔
    memory addr = byte ∧ byte ≠ 0 ∧ StringAt memory (addr + 1) bytes := by
  have hread : readAt memory addr ((byte :: bytes).length + 1) =
      memory addr :: readAt memory (addr + 1) (bytes.length + 1) := by
    rw [List.length_cons, Nat.add_comm (bytes.length + 1) 1, readAt_add]
    rfl
  constructor
  · rintro ⟨hnonzero, hstored⟩
    rw [hread, List.cons_append, List.cons.injEq] at hstored
    rw [List.forall_mem_cons] at hnonzero
    exact ⟨hstored.1, hnonzero.1, hnonzero.2, hstored.2⟩
  · rintro ⟨rfl, hne, hnonzero, hstored⟩
    refine ⟨List.forall_mem_cons.mpr ⟨hne, hnonzero⟩, ?_⟩
    rw [hread, hstored, List.cons_append]

/-- A string depends on its bytes and its terminator only. -/
theorem congr {memory' : ℕ → UInt8} (h : StringAt memory addr bytes)
    (hsame : ∀ i ≤ bytes.length, memory' (addr + i) = memory (addr + i)) :
    StringAt memory' addr bytes := by
  refine ⟨h.nonzero, ?_⟩
  rw [← h.stored]
  exact readAt_congr fun i hi ↦ hsame i (Nat.le_of_lt_succ hi)

end StringAt

theorem strlenLoop_eq (h : StringAt memory s S) {turns i : ℕ} (hi : i ≤ S.length)
    (hturns : S.length - i < turns) : strlenLoop memory s turns i = some (S.length + 1) := by
  induction turns generalizing i with
  | zero => exact absurd hturns (Nat.not_lt_zero _)
  | succ turns ih =>
    rw [strlenLoop]
    rcases Nat.lt_or_eq_of_le hi with hlt | rfl
    · rw [if_pos (h.apply_ne_zero hlt)]
      exact ih hlt (by omega)
    · rw [if_neg (not_not.mpr h.apply_length)]

/-- `strlen` counts the terminator. -/
theorem strlen_eq (h : StringAt memory s S) {turns : ℕ} (hturns : S.length < turns) :
    strlen memory turns s = some (S.length + 1) :=
  strlenLoop_eq h (Nat.zero_le _) hturns

/-- `strcpy` writes the bytes of the string without the terminator. -/
theorem strcpyLoop_eq {s1 s2 turns i : ℕ} (h : StringAt memory (s2 + i) S)
    (hturns : S.length < turns)
    (hapart : s1 + i + S.length ≤ s2 + i ∨ s2 + i + S.length < s1 + i) :
    strcpyLoop s1 s2 turns memory i = some (writeAt memory (s1 + i) S) := by
  induction S generalizing memory turns i with
  | nil =>
    obtain ⟨turns, rfl⟩ := Nat.exists_eq_add_of_lt hturns
    rw [StringAt.nil_iff] at h
    rw [strcpyLoop, if_neg (not_not.mpr h), writeAt_nil]
  | cons byte rest ih =>
    obtain ⟨turns, rfl⟩ := Nat.exists_eq_add_of_lt hturns
    obtain ⟨hbyte, hne, hrest⟩ := StringAt.cons_iff.mp h
    rw [List.length_cons] at hapart hturns
    rw [strcpyLoop, hbyte, if_pos hne, writeAt_cons]
    apply ih
    · apply hrest.congr
      intro k hk
      exact Function.update_of_ne (by omega) _ _
    · simp only [List.length_cons]
      omega
    · omega

/-- The bytes that `strcpy` wrote are a string when a terminator was there already. -/
theorem strcpy_right_iff (h : StringAt memory s S) {turns dst : ℕ} (hturns : S.length < turns)
    (hapart : dst + S.length ≤ s ∨ s + S.length < dst) :
    (∃ after, strcpy memory turns dst s = some after ∧ StringAt after dst S) ↔
      memory (dst + S.length) = 0 := by
  have hcopy : strcpy memory turns dst s = some (writeAt memory dst S) :=
    strcpyLoop_eq h hturns hapart
  have hend : writeAt memory dst S (dst + S.length) = memory (dst + S.length) :=
    writeAt_outside (Or.inr (Nat.le_refl _))
  rw [hcopy]
  constructor
  · rintro ⟨after, hafter, hstring⟩
    cases hafter
    rw [← hend]
    exact hstring.apply_length
  · intro hzero
    refine ⟨_, rfl, h.nonzero, ?_⟩
    rw [readAt_add, readAt_writeAt]
    congr 1
    rw [← hzero, ← hend]
    rfl

/-- Stores from an address on leave what is below it. -/
theorem foldl_update_below {start addr : ℕ} (haddr : addr < start) (indices : List ℕ)
    (value : (ℕ → UInt8) → ℕ → UInt8) :
    indices.foldl (fun memory i ↦ Function.update memory (start + i) (value memory i)) memory
      addr = memory addr := by
  induction indices generalizing memory with
  | nil => rfl
  | cons i indices ih =>
    rw [List.foldl_cons, ih]
    exact Function.update_of_ne (by omega) _ _

/-- `strcat` appends behind the terminator, so the string is the one that it was. -/
theorem strcat_eq (hs : StringAt memory s S) (ht : StringAt memory t T) {turns : ℕ}
    (hturns : S.length < turns) (hturns' : T.length < turns) :
    ∃ after, strcat memory turns s t = some after ∧ StringAt after s S := by
  rw [strcat, strlen_eq ht hturns', strlen_eq hs hturns]
  refine ⟨_, rfl, hs.congr ?_⟩
  intro i hi
  rw [Function.update_of_ne (by omega)]
  exact foldl_update_below (by omega) _ fun memory i ↦ memory (t + i)

theorem strcat_right_iff (hs : StringAt memory s S) (ht : StringAt memory t T) {turns : ℕ}
    (hturns : S.length < turns) (hturns' : T.length < turns) :
    (∃ after, strcat memory turns s t = some after ∧ StringAt after s (S ++ T)) ↔ T = [] := by
  obtain ⟨after, hcat, hafter⟩ := strcat_eq hs ht hturns hturns'
  constructor
  · rintro ⟨after', hcat', happended⟩
    rw [hcat] at hcat'
    cases hcat'
    by_contra hne
    have hpos : S.length < (S ++ T).length := by
      rw [List.length_append]
      exact Nat.lt_add_of_pos_right (List.length_pos_of_ne_nil hne)
    exact happended.apply_ne_zero hpos hafter.apply_length
  · rintro rfl
    rw [List.append_nil]
    exact ⟨after, hcat, hafter⟩

/-! ## Comparison -/

theorem firstPair_ne {first second : List UInt8} {x y : UInt8}
    (h : firstPair first second = some (x, y)) : x ≠ y := by
  induction first generalizing second with
  | nil => cases h
  | cons a first ih =>
    cases second with
    | nil => cases h
    | cons b second =>
      rw [firstPair] at h
      split at h
      next => exact ih h
      next hne =>
        cases h
        exact hne

/-- Sequences of one length are the same when they differ nowhere. -/
theorem firstPair_eq_none_iff {first second : List UInt8}
    (hlength : first.length = second.length) : firstPair first second = none ↔ first = second := by
  induction first generalizing second with
  | nil =>
    rw [List.eq_nil_of_length_eq_zero hlength.symm]
    exact iff_of_true rfl rfl
  | cons a first ih =>
    cases second with
    | nil => cases hlength
    | cons b second =>
      rw [firstPair]
      split
      next heq =>
        subst heq
        rw [ih (Nat.succ.inj hlength), List.cons.injEq, and_iff_right rfl]
      next hne =>
        apply iff_of_false (Option.some_ne_none _)
        intro h
        exact hne (List.cons.inj h).1

/-- A comparison of `char` values is right when the first difference is within one half of the
range of a byte. -/
theorem compares_charDiff_iff {pair : Option (UInt8 × UInt8)}
    (hpair : ∀ x y, pair = some (x, y) → x ≠ y) :
    Compares (charDiff signed pair) pair ↔ ∀ x y, pair = some (x, y) → SameHalf signed x y := by
  cases pair with
  | none => exact iff_of_true ⟨Iff.rfl, Iff.rfl⟩ nofun
  | some pair =>
    obtain ⟨x, y⟩ := pair
    rw [charDiff, compares_char_iff (hpair x y rfl)]
    constructor
    · rintro h x y heq
      cases heq
      exact h
    · intro h
      exact h x y rfl

/-- `strcmp` is the difference of the first two bytes that differ. -/
theorem strcmp_eq (hs : StringAt memory s S) (ht : StringAt memory t T) {turns : ℕ}
    (hturns : S.length < turns) : strcmp signed memory turns s t =
      some (charDiff signed (firstPair (S ++ [0]) (T ++ [0]))) := by
  induction S generalizing s t T turns with
  | nil =>
    obtain ⟨turns, rfl⟩ := Nat.exists_eq_add_of_lt hturns
    rw [StringAt.nil_iff] at hs
    rw [strcmp, hs, if_neg (fun h ↦ h.2 rfl)]
    cases T with
    | nil =>
      rw [StringAt.nil_iff] at ht
      rw [ht, Int.sub_self]
      rfl
    | cons byte rest =>
      obtain ⟨hbyte, hne, -⟩ := StringAt.cons_iff.mp ht
      rw [hbyte, List.nil_append, List.cons_append, firstPair, if_neg hne.symm]
      rfl
  | cons byte rest ih =>
    obtain ⟨turns, rfl⟩ := Nat.exists_eq_add_of_lt hturns
    obtain ⟨hbyte, hne, hrest⟩ := StringAt.cons_iff.mp hs
    have hmore : rest.length < (byte :: rest).length + turns := by
      rw [List.length_cons]
      omega
    rw [strcmp, hbyte]
    cases T with
    | nil =>
      rw [StringAt.nil_iff] at ht
      rw [ht, if_neg (fun h ↦ hne h.1), List.cons_append, List.nil_append, firstPair, if_neg hne]
      rfl
    | cons other others =>
      obtain ⟨hother, -, hothers⟩ := StringAt.cons_iff.mp ht
      rw [hother, List.cons_append, List.cons_append, firstPair]
      by_cases heq : byte = other
      · rw [if_pos ⟨heq, hne⟩, if_pos heq]
        exact ih hrest hothers hmore
      · rw [if_neg (fun h ↦ heq h.1), if_neg heq]
        rfl

theorem strncmp_eq (hs : StringAt memory s S) (ht : StringAt memory t T) {turns : ℕ}
    (hturns : S.length < turns) (n : ℕ) : strncmp signed memory turns s t n =
      some (charDiff signed (firstPair ((S ++ [0]).take n) ((T ++ [0]).take n))) := by
  induction S generalizing s t T turns n with
  | nil =>
    obtain ⟨turns, rfl⟩ := Nat.exists_eq_add_of_lt hturns
    rw [StringAt.nil_iff] at hs
    rw [strncmp, hs, if_neg (fun h ↦ h.2.1 rfl)]
    cases n with
    | zero => rfl
    | succ n =>
      rw [if_neg (Nat.succ_ne_zero n)]
      cases T with
      | nil =>
        rw [StringAt.nil_iff] at ht
        rw [ht, Int.sub_self, List.nil_append, List.take_succ_cons, firstPair, if_pos rfl,
          List.take_nil]
        rfl
      | cons byte rest =>
        obtain ⟨hbyte, hne, -⟩ := StringAt.cons_iff.mp ht
        rw [hbyte, List.nil_append, List.cons_append, List.take_succ_cons, List.take_succ_cons,
          firstPair, if_neg hne.symm]
        rfl
  | cons byte rest ih =>
    obtain ⟨turns, rfl⟩ := Nat.exists_eq_add_of_lt hturns
    obtain ⟨hbyte, hne, hrest⟩ := StringAt.cons_iff.mp hs
    have hmore : rest.length < (byte :: rest).length + turns := by
      rw [List.length_cons]
      omega
    rw [strncmp, hbyte]
    cases n with
    | zero =>
      rw [if_neg (fun h ↦ h.2.2 rfl), if_pos rfl]
      rfl
    | succ n =>
      rw [if_neg (Nat.succ_ne_zero n), Nat.add_sub_cancel]
      cases T with
      | nil =>
        rw [StringAt.nil_iff] at ht
        rw [ht, if_neg (fun h ↦ hne h.1), List.cons_append, List.nil_append, List.take_succ_cons,
          List.take_succ_cons, firstPair, if_neg hne]
        rfl
      | cons other others =>
        obtain ⟨hother, -, hothers⟩ := StringAt.cons_iff.mp ht
        rw [hother, List.cons_append, List.cons_append, List.take_succ_cons, List.take_succ_cons,
          firstPair]
        by_cases heq : byte = other
        · rw [if_pos ⟨heq, hne, Nat.succ_ne_zero n⟩, if_pos heq]
          exact ih hrest hothers hmore n
        · rw [if_neg (fun h ↦ heq h.1), if_neg heq]
          rfl

/-- `memcmp` is the difference of the first two bytes, whether they differ or not. -/
theorem memcmp_eq (s1 s2 n : ℕ) : memcmp signed memory s1 s2 (n + 1) =
    charVal signed (memory s1) - charVal signed (memory s2) := by
  induction n with
  | zero =>
    rw [memcmp, memcmp]
    split
    next => rfl
    next h => exact (not_not.mp h).symm
  | succ n ih =>
    rw [memcmp, ih]
    exact ite_self _

theorem memcmp_right_iff (s1 s2 n : ℕ) :
    Compares (memcmp signed memory s1 s2 n) (firstPair (readAt memory s1 n) (readAt memory s2 n)) ↔
      readAt memory s1 n = readAt memory s2 n ∨
        memory s1 ≠ memory s2 ∧ SameHalf signed (memory s1) (memory s2) := by
  have hlength : (readAt memory s1 n).length = (readAt memory s2 n).length := by
    rw [length_readAt, length_readAt]
  have hnone := firstPair_eq_none_iff hlength
  cases n with
  | zero => exact iff_of_true ⟨Iff.rfl, Iff.rfl⟩ (Or.inl rfl)
  | succ n =>
    have hread : ∀ start, readAt memory start (n + 1) =
        memory start :: readAt memory (start + 1) n := by
      intro start
      rw [Nat.add_comm n 1, readAt_add]
      rfl
    rw [memcmp_eq]
    by_cases heq : memory s1 = memory s2
    · rw [heq, Int.sub_self, ← hnone, or_iff_left (fun h ↦ h.1 rfl)]
      constructor
      · intro h
        cases hpair : firstPair (readAt memory s1 (n + 1)) (readAt memory s2 (n + 1)) with
        | none => rfl
        | some pair =>
          obtain ⟨x, y⟩ := pair
          rw [hpair, Compares, pairOrder] at h
          have hne : x.toNat ≠ y.toNat := fun h ↦ firstPair_ne hpair (UInt8.toNat_inj.mp h)
          omega
      · intro h
        rw [h]
        exact ⟨Iff.rfl, Iff.rfl⟩
    · have hfirst : firstPair (readAt memory s1 (n + 1)) (readAt memory s2 (n + 1)) =
          some (memory s1, memory s2) := by
        rw [hread, hread, firstPair, if_neg heq]
      rw [hfirst] at hnone
      rw [hfirst, compares_char_iff heq, or_iff_right (fun h ↦ Option.some_ne_none _ (hnone.mpr h)),
        and_iff_right heq]

section LastIndex

variable {p q : ℕ → Prop} [DecidablePred p] [DecidablePred q] {bound : ℕ}

theorem lastIndex_le {i : ℕ} (h : lastIndex p bound = some i) : i ≤ bound := by
  induction bound with
  | zero =>
    rw [lastIndex] at h
    split at h <;> cases h
    exact Nat.le_refl 0
  | succ bound ih =>
    rw [lastIndex] at h
    split at h
    next =>
      cases h
      exact Nat.le_refl _
    next => exact Nat.le_succ_of_le (ih h)

theorem lastIndex_eq_none_iff : lastIndex p bound = none ↔ ¬ ∃ i ≤ bound, p i := by
  induction bound with
  | zero =>
    rw [lastIndex]
    split
    next h => exact iff_of_false (Option.some_ne_none _) (not_not.mpr ⟨0, Nat.le_refl 0, h⟩)
    next h =>
      apply iff_of_true rfl
      rintro ⟨i, hi, hp⟩
      rw [Nat.le_zero.mp hi] at hp
      exact h hp
  | succ bound ih =>
    rw [lastIndex]
    split
    next h =>
      exact iff_of_false (Option.some_ne_none _) (not_not.mpr ⟨bound + 1, Nat.le_refl _, h⟩)
    next h =>
      rw [ih, not_iff_not]
      constructor
      · rintro ⟨i, hi, hp⟩
        exact ⟨i, Nat.le_succ_of_le hi, hp⟩
      · rintro ⟨i, hi, hp⟩
        rcases Nat.lt_succ_iff_lt_or_eq.mp (Nat.lt_succ_of_le hi) with hlt | rfl
        · exact ⟨i, Nat.le_of_lt_succ hlt, hp⟩
        · exact absurd hp h

theorem lastIndex_congr (h : ∀ i, p i ↔ q i) : lastIndex p bound = lastIndex q bound := by
  induction bound with
  | zero => simp only [lastIndex, h]
  | succ bound ih => simp only [lastIndex, h, ih]

end LastIndex

/-- The loop of `strrchr` finds the last place of `c`, and runs below zero without one. -/
theorem strrchrLoop_eq (c : ℤ) (bound : ℕ) : strrchrLoop signed memory s c bound =
    (lastIndex (fun i ↦ charVal signed (memory (s + i)) = c) bound).getD (2 ^ 64 - 1) := by
  induction bound with
  | zero =>
    rw [strrchrLoop, lastIndex, Nat.add_zero]
    by_cases h : charVal signed (memory s) = c
    · rw [if_neg (not_not.mpr h), if_pos h]
      rfl
    · rw [if_pos h, if_neg h]
      rfl
  | succ bound ih =>
    rw [strrchrLoop, lastIndex]
    by_cases h : charVal signed (memory (s + (bound + 1))) = c
    · rw [if_neg (not_not.mpr h), if_pos h]
      rfl
    · rw [if_pos h, if_neg h, ih]

/-- Where some byte has the value `c`, the bytes that are the character `c` are those that have its
value. -/
theorem charVal_eq_iff_isChar {c : ℤ} {byte : UInt8} (h : charVal signed byte = c)
    (other : UInt8) : charVal signed other = c ↔ IsChar c other := by
  subst h
  have hbyte := byte.toNat_lt
  have hother := other.toNat_lt
  have hsame : IsChar (charVal signed byte) other ↔ byte.toNat = other.toNat := by
    unfold IsChar
    cases signed with
    | false =>
      dsimp only [charVal]
      omega
    | true =>
      dsimp only [charVal]
      split <;> omega
  rw [hsame, UInt8.toNat_inj]
  constructor
  · intro h
    exact (charVal_injective h).symm
  · rintro rfl
    rfl

/-- `strrchr` is right when the character is in the string, or else just behind its terminator, but
not in both places. -/
theorem strrchr_right_iff (h : StringAt memory s S) {turns : ℕ} (hturns : S.length < turns)
    (hs : 0 < s) (hroom : s + S.length + 1 < 2 ^ 64) (c : ℤ) :
    strrchr signed memory turns s c =
        some ((lastIndex (fun i ↦ IsChar c (memory (s + i))) S.length).map (s + ·)) ↔
      (charVal signed (memory (s + S.length + 1)) = c ↔
        ¬ ∃ i ≤ S.length, charVal signed (memory (s + i)) = c) := by
  rw [strrchr, strlen_eq h hturns]
  change some _ = some _ ↔ _
  rw [Option.some.injEq]
  by_cases hbehind : charVal signed (memory (s + S.length + 1)) = c
  · have hpos : strrchrLoop signed memory s c (S.length + 1) = S.length + 1 :=
      if_neg (not_not.mpr hbehind)
    have hchar := charVal_eq_iff_isChar hbehind
    rw [hpos, if_pos rfl, eq_comm, Option.map_eq_none_iff, lastIndex_eq_none_iff,
      iff_true_left hbehind]
    simp only [hchar]
  · have hpos :
      strrchrLoop signed memory s c (S.length + 1) = strrchrLoop signed memory s c S.length :=
      if_pos hbehind
    rw [hpos, strrchrLoop_eq, iff_false_left hbehind, not_not]
    cases hlast : lastIndex (fun i ↦ charVal signed (memory (s + i)) = c) S.length with
    | none =>
      have hnot := lastIndex_eq_none_iff.mp hlast
      refine iff_of_false ?_ hnot
      rw [Option.getD_none, if_neg (by omega)]
      intro heq
      obtain ⟨i, hi, hpointer⟩ := Option.map_eq_some_iff.mp heq.symm
      have hle := lastIndex_le hi
      omega
    | some i =>
      have hle := lastIndex_le hlast
      have hfound : ∃ i ≤ S.length, charVal signed (memory (s + i)) = c := by
        by_contra hnot
        rw [lastIndex_eq_none_iff.mpr hnot] at hlast
        cases hlast
      refine iff_of_true ?_ hfound
      obtain ⟨j, -, hj⟩ := hfound
      have hchar := charVal_eq_iff_isChar hj
      rw [← lastIndex_congr fun i ↦ hchar (memory (s + i)), hlast, Option.getD_some,
        if_neg (by omega), Option.map_some, Nat.mod_eq_of_lt (by omega)]

/-- When each function does what the standard says: `strlen` never, `strcpy` over a terminator,
`strcat` of nothing, the comparisons within one half of the range of a byte (`memcmp` for a first
byte only), `strrchr` when it finds the character in the string or just behind it. -/
theorem string_functions_iff {turns : ℕ} (hs : StringAt memory s S) (ht : StringAt memory t T)
    (hturns : S.length < turns) (hturns' : T.length < turns) (hnull : 0 < s)
    (hroom : s + S.length + 1 < 2 ^ 64) :
    (strlen memory turns s = some S.length ↔ False) ∧
      (∀ dst, dst + S.length ≤ s ∨ s + S.length < dst →
        ((∃ after, strcpy memory turns dst s = some after ∧ StringAt after dst S) ↔
          memory (dst + S.length) = 0)) ∧
      ((∃ after, strcat memory turns s t = some after ∧ StringAt after s (S ++ T)) ↔ T = []) ∧
      (∀ s1 s2 n, Compares (memcmp signed memory s1 s2 n)
          (firstPair (readAt memory s1 n) (readAt memory s2 n)) ↔
        readAt memory s1 n = readAt memory s2 n ∨
          memory s1 ≠ memory s2 ∧ SameHalf signed (memory s1) (memory s2)) ∧
      ((∃ result, strcmp signed memory turns s t = some result ∧
          Compares result (firstPair (S ++ [0]) (T ++ [0]))) ↔
        ∀ x y, firstPair (S ++ [0]) (T ++ [0]) = some (x, y) → SameHalf signed x y) ∧
      (∀ n, (∃ result, strncmp signed memory turns s t n = some result ∧
          Compares result (firstPair ((S ++ [0]).take n) ((T ++ [0]).take n))) ↔
        ∀ x y, firstPair ((S ++ [0]).take n) ((T ++ [0]).take n) = some (x, y) →
          SameHalf signed x y) ∧
      ∀ c, strrchr signed memory turns s c =
          some ((lastIndex (fun i ↦ IsChar c (memory (s + i))) S.length).map (s + ·)) ↔
        (charVal signed (memory (s + S.length + 1)) = c ↔
          ¬ ∃ i ≤ S.length, charVal signed (memory (s + i)) = c) := by
  refine ⟨?_, fun dst ↦ strcpy_right_iff hs hturns, strcat_right_iff hs ht hturns hturns',
    memcmp_right_iff, ?_, fun n ↦ ?_, strrchr_right_iff hs hturns hnull hroom⟩
  · rw [strlen_eq hs hturns, Option.some.injEq, iff_false]
    exact Nat.succ_ne_self _
  · simp only [strcmp_eq hs ht hturns, Option.some.injEq, exists_eq_left']
    exact compares_charDiff_iff fun x y ↦ firstPair_ne
  · simp only [strncmp_eq hs ht hturns, Option.some.injEq, exists_eq_left']
    exact compares_charDiff_iff fun x y ↦ firstPair_ne

end Strings

/-- A memory with the strings `ab` at 16 and `ac` at 32, and a byte 200 at 48. -/
def twoStrings (addr : ℕ) : UInt8 :=
  if addr = 16 ∨ addr = 32 then 97 else if addr = 17 then 98 else if addr = 33 then 99
  else if addr = 48 then 200 else 0

/-- Two strings that differ in a letter are compared as they should be. -/
theorem string_functions_letters :
    strlen twoStrings 4 16 ≠ some 2 ∧ ∃ result, strcmp true twoStrings 4 16 32 = some result ∧
      Compares result (firstPair [97, 98, 0] [97, 99, 0]) := by
  have hfirst : StringAt twoStrings 16 [97, 98] := ⟨by simp, rfl⟩
  have hsecond : StringAt twoStrings 32 [97, 99] := ⟨by simp, rfl⟩
  obtain ⟨hlen, -, -, -, hcompare, -⟩ := @string_functions_iff true twoStrings 16 32 _ _ 4 hfirst
    hsecond (by decide) (by decide) (by decide) (by decide)
  refine ⟨hlen.mp, hcompare.mpr ?_⟩
  intro x y h
  cases h
  exact Or.inr (by decide)

/-- The length of `ab` is said to be 3, an empty string is copied without its terminator, appending
`ac` leaves `ab`, two blocks that begin with the same byte are said to be the same, a byte 200 is
less than an empty string, and a letter that is not there is found in front of the string. -/
theorem string_functions_fail :
    (StringAt twoStrings 16 [97, 98] ∧ strlen twoStrings 4 16 = some 3) ∧
      (strcpy twoStrings 4 48 49).map (· 48) = some 200 ∧
      (strcat twoStrings 4 16 32).map (fun after ↦ readAt after 16 6) =
        some [97, 98, 0, 97, 99, 0] ∧
      memcmp true twoStrings 16 32 2 = 0 ∧ strcmp true twoStrings 4 48 49 = some (-56) ∧
      strrchr true twoStrings 4 16 120 = some (some 15) := by
  refine ⟨⟨⟨by simp, rfl⟩, rfl⟩, ?_⟩
  decide

end Brutal.Libc
