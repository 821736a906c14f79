import Brutal.Base.Debug
import Mathlib.Data.List.TakeWhile

/-!
# The scanner

`libs/brutal-parse/scan.c` goes over a text byte by byte.  The state of a scanner is what is left of
the text, and whether an error was thrown: from then on the scanner is at the end and only sees
zeros.
-/

namespace Brutal.Text

open Base Lib

/-- The bytes of a text that has only ASCII characters. -/
def ascii (chars : List Char) : List UInt8 := chars.map fun c ↦ UInt8.ofNat c.toNat

/-- `Scan` -/
structure Scan where
  rest : List UInt8
  hasError : Bool
deriving DecidableEq, Repr

/-- `scan_init`, whose size is an `int`. -/
def scanInit (text : List UInt8) : Except Fault Scan :=
  if text.length < 2 ^ 31 then .ok ⟨text, false⟩ else .error .overflow

/-- `scan_ended` -/
def scanEnded (self : Scan) : Bool := self.rest.isEmpty || self.hasError

/-- `scan_peek` of an offset that is not negative. -/
def scanPeek (self : Scan) (offset : ℕ) : UInt8 :=
  if self.hasError then 0 else self.rest[offset]?.getD 0

/-- `scan_curr` -/
def scanCurr (self : Scan) : UInt8 := scanPeek self 0

/-- `scan_throw` -/
def scanThrow (self : Scan) : Scan := { self with hasError := true }

/-- `scan_next` -/
def scanNext (self : Scan) : UInt8 × Scan :=
  if self.hasError then (0, self)
  else
    match self.rest with
    | [] => (0, scanThrow self)
    | byte :: rest => (byte, ⟨rest, false⟩)

/-- `scan_next_n` -/
def scanNextN : ℕ → Scan → Scan
  | 0, self => self
  | n + 1, self => scanNextN n (scanNext self).2

/-- `scan_skip` -/
def scanSkip (self : Scan) (c : UInt8) : Bool × Scan :=
  if scanCurr self != c then (false, self) else (true, (scanNext self).2)

/-- `scan_skip_word` -/
def scanSkipWord (self : Scan) (word : List UInt8) : Bool × Scan :=
  if (List.range word.length).all fun i ↦ scanPeek self i = word[i]?.getD 0 then
    (true, scanNextN word.length self)
  else (false, self)

/-- `scan_eat_match`, with the bytes that were eaten. -/
def scanEatMatch (self : Scan) (callback : UInt8 → Bool) : List UInt8 × Scan :=
  if self.hasError then ([], self)
  else (self.rest.takeWhile callback, ⟨self.rest.dropWhile callback, false⟩)

/-- `scan_eat` -/
def scanEat (self : Scan) (callback : UInt8 → Bool) : Bool × Scan :=
  let (eaten, self) := scanEatMatch self callback
  (!eaten.isEmpty, self)

/-- `isspace` -/
def isspace (c : UInt8) : Bool := c = 32 || c = 10 || c = 13 || c = 9 || c = 11

/-- `isdigit` -/
def isdigit (c : UInt8) : Bool := 48 ≤ c && c ≤ 57

/-- `scan_skip_space` -/
def scanSkipSpace (self : Scan) : Bool × Scan := scanEat self isspace

/-- `scan_expect` -/
def scanExpect (self : Scan) (c : UInt8) : Scan :=
  match scanSkip self c with
  | (true, self) => self
  | (false, self) => scanThrow self

/-- The values of a `long`. -/
def IsLong (n : ℤ) : Prop := -2 ^ 63 ≤ n ∧ n < 2 ^ 63

instance (n : ℤ) : Decidable (IsLong n) := inferInstanceAs (Decidable (_ ∧ _))

/-- The next value of a number with one more digit, in a `long`. -/
def scanDigit (value : ℤ) (digit : UInt8) : Except Fault ℤ :=
  let value := value * 10 + (digit.toNat - 48)
  if IsLong value then .ok value else .error .overflow

/-- `scan_next_int`, which returns a number if there is one. -/
def scanNextInt (self : Scan) : Except Fault (Option ℤ × Scan) := do
  let isNegative := scanPeek self 0 = 45 && isdigit (scanPeek self 1)
  let self := if isNegative then (scanNext self).2 else self
  let (digits, self) := scanEatMatch self isdigit
  let value ← digits.foldlM scanDigit 0
  if isNegative then return (some (value * -1), self)
  else if digits.isEmpty then return (none, self)
  else return (some value, self)

@[simp] theorem scanCurr_cons (byte : UInt8) (rest : List UInt8) :
    scanCurr ⟨byte :: rest, false⟩ = byte := rfl

@[simp] theorem scanCurr_nil : scanCurr ⟨[], false⟩ = 0 := rfl

@[simp] theorem scanEnded_cons (byte : UInt8) (rest : List UInt8) :
    scanEnded ⟨byte :: rest, false⟩ = false := rfl

@[simp] theorem scanNext_cons (byte : UInt8) (rest : List UInt8) :
    scanNext ⟨byte :: rest, false⟩ = (byte, ⟨rest, false⟩) := rfl

theorem scanSkip_cons (byte : UInt8) (rest : List UInt8) :
    scanSkip ⟨byte :: rest, false⟩ byte = (true, ⟨rest, false⟩) := by
  rw [scanSkip, if_neg (by simp)]
  rfl

theorem scanSkip_ne {self : Scan} {c : UInt8} (h : scanCurr self ≠ c) :
    scanSkip self c = (false, self) :=
  if_pos (bne_iff_ne.2 h)

theorem scanExpect_cons (byte : UInt8) (rest : List UInt8) :
    scanExpect ⟨byte :: rest, false⟩ byte = ⟨rest, false⟩ := by
  rw [scanExpect, scanSkip_cons]

theorem scanEatMatch_false (rest : List UInt8) (callback : UInt8 → Bool) :
    scanEatMatch ⟨rest, false⟩ callback =
      (rest.takeWhile callback, ⟨rest.dropWhile callback, false⟩) := rfl

/-- What is eaten in front of a byte that does not match. -/
theorem scanEatMatch_append {eaten rest : List UInt8} {callback : UInt8 → Bool}
    (heaten : ∀ byte ∈ eaten, callback byte = true)
    (hrest : ∀ byte ∈ rest.head?, callback byte = false) :
    scanEatMatch ⟨eaten ++ rest, false⟩ callback = (eaten, ⟨rest, false⟩) := by
  have htake : rest.takeWhile callback = [] := by
    cases rest with
    | nil => rfl
    | cons byte tail => exact List.takeWhile_cons_of_neg (by simp [hrest byte rfl])
  have hdrop : rest.dropWhile callback = rest := by
    cases rest with
    | nil => rfl
    | cons byte tail => exact List.dropWhile_cons_of_neg (by simp [hrest byte rfl])
  rw [scanEatMatch_false, List.takeWhile_append_of_pos heaten,
    List.dropWhile_append_of_pos heaten, htake, hdrop, List.append_nil]

/-- A scanner goes over a word at the front of a text. -/
theorem scanNextN_drop {n : ℕ} {text : List UInt8} (h : n ≤ text.length) :
    scanNextN n ⟨text, false⟩ = ⟨text.drop n, false⟩ := by
  induction n generalizing text with
  | zero => rfl
  | succ n ih =>
    cases text with
    | nil => simp at h
    | cons byte text => exact ih (Nat.le_of_succ_le_succ h)

/-- A word without zeros is skipped exactly when the text starts with it. -/
theorem scanSkipWord_eq {word : List UInt8} (hword : 0 ∉ word) (text : List UInt8) :
    scanSkipWord ⟨text, false⟩ word =
      if word <+: text then (true, ⟨text.drop word.length, false⟩) else (false, ⟨text, false⟩) := by
  have hpeek : ((List.range word.length).all fun i ↦
      scanPeek ⟨text, false⟩ i = word[i]?.getD 0) = true ↔ word <+: text := by
    rw [List.all_eq_true, List.prefix_iff_getElem?]
    constructor
    · intro h i hi
      have hbyte := of_decide_eq_true (h i (List.mem_range.mpr hi))
      rw [List.getElem?_eq_getElem hi, Option.getD_some] at hbyte
      change text[i]?.getD 0 = word[i] at hbyte
      cases htext : text[i]? with
      | none =>
        rw [htext, Option.getD_none] at hbyte
        exact absurd (hbyte ▸ List.getElem_mem hi) hword
      | some byte => rw [← hbyte, htext, Option.getD_some]
    · intro h i hi
      have hlt := List.mem_range.mp hi
      apply decide_eq_true
      change text[i]?.getD 0 = word[i]?.getD 0
      rw [h i hlt, List.getElem?_eq_getElem hlt]
  rw [scanSkipWord]
  by_cases h : word <+: text
  · rw [if_pos (hpeek.mpr h), if_pos h, scanNextN_drop h.length_le]
  · rw [if_neg (fun hall ↦ h (hpeek.mp hall)), if_neg h]

theorem scanSkip_eq {c : UInt8} (hc : c ≠ 0) (text : List UInt8) :
    scanSkip ⟨text, false⟩ c =
      if text.head? = some c then (true, ⟨text.tail, false⟩) else (false, ⟨text, false⟩) := by
  cases text with
  | nil =>
    rw [scanSkip_ne (Ne.symm hc), List.head?_nil, if_neg nofun]
  | cons byte text =>
    rw [List.head?_cons]
    by_cases h : byte = c
    · rw [if_pos (congrArg some h), h, scanSkip_cons]
      rfl
    · rw [if_neg (fun heq ↦ h (Option.some.inj heq)),
        scanSkip_ne (show scanCurr ⟨byte :: text, false⟩ ≠ c from h)]

end Brutal.Text
