import Brutal.Text.Emit

/-!
# UTF-8

`libs/brutal-text/utf8.c`: the encoder is `utf8FromRune`, and the decoder takes the first rune from
the front of a string.  The decoder takes its bytes by index, and an index outside of the string is
a fault.
-/

namespace Brutal.Text

open Base Lib

/-- `utf8_rune_len` -/
def utf8RuneLen (rune : ℕ) : ℕ :=
  if rune ≤ 0x7f then 1
  else if rune ≤ 0x7ff then 2
  else if rune ≤ 0xffff then 3
  else if rune ≤ 0x10ffff then 4
  else 0

/-- `utf8_byte_len` -/
def utf8ByteLen (first : UInt8) : ℕ :=
  if first &&& 0xf8 = 0xf0 then 4
  else if first &&& 0xf0 = 0xe0 then 3
  else if first &&& 0xe0 = 0xc0 then 2
  else 1

/-- `str.buf[i]` -/
def strAt (str : List UInt8) (i : ℕ) : Except Fault UInt8 :=
  match str[i]? with
  | some byte => .ok byte
  | none => .error .outOfBounds

/-- `utf8_valid` -/
def utf8Valid (str : List UInt8) : Except Fault Bool :=
  if str.isEmpty then .ok false
  else do
    let first ← strAt str 0
    return utf8ByteLen first ≤ str.length

/-- The bits of a byte that a rune is made of. -/
def maskedAt (str : List UInt8) (mask : ℕ) (i : ℕ) : Except Fault ℕ := do
  let byte ← strAt str i
  return mask &&& byte.toNat

/-- `utf8_to_rune` -/
def utf8ToRune (str : List UInt8) : Except Fault ℕ := do
  if !(← utf8Valid str) then return 0xfffd
  let first ← strAt str 0
  if first &&& 0xf8 = 0xf0 then
    let a ← maskedAt str 0x07 0
    let b ← maskedAt str 0x3f 1
    let c ← maskedAt str 0x3f 2
    let d ← maskedAt str 0x3f 3
    return a <<< 18 ||| b <<< 12 ||| c <<< 6 ||| d
  else if first &&& 0xf0 = 0xe0 then
    let a ← maskedAt str 0x0f 0
    let b ← maskedAt str 0x3f 1
    let c ← maskedAt str 0x3f 2
    return a <<< 12 ||| b <<< 6 ||| c
  else if first &&& 0xe0 = 0xc0 then
    let a ← maskedAt str 0x1f 0
    let b ← maskedAt str 0x3f 1
    return a <<< 6 ||| b
  else
    return first.toNat

/-- `uft8_next_rune`, with the rune and what is left of the string if there is one. -/
def uft8NextRune (str : List UInt8) : Except Fault (Option (ℕ × List UInt8)) := do
  if !(← utf8Valid str) then return none
  let len := utf8ByteLen (← strAt str 0)
  let rune ← utf8ToRune str
  return some (rune, str.drop len)

/-- The loop of the callers, which goes on for as long as there is a rune; the runes, and what is
left of the string. -/
def utf8RunesLoop : ℕ → List UInt8 → Except Fault (List ℕ × List UInt8)
  | 0, _ => .error .depth
  | turns + 1, str => do
    match ← uft8NextRune str with
    | none => return ([], str)
    | some (rune, rest) =>
      let (runes, rest) ← utf8RunesLoop turns rest
      return (rune :: runes, rest)

/-- The iteration over a string. -/
def utf8Runes (str : List UInt8) : Except Fault (List ℕ × List UInt8) :=
  utf8RunesLoop (str.length + 1) str

theorem utf8ByteLen_pos (first : UInt8) : 0 < utf8ByteLen first := by
  unfold utf8ByteLen
  split
  · decide
  · split
    · decide
    · split <;> decide

theorem strAt_of_lt {str : List UInt8} {i : ℕ} (h : i < str.length) : strAt str i = .ok str[i] := by
  rw [strAt, List.getElem?_eq_getElem h]

theorem maskedAt_of_lt {str : List UInt8} {i : ℕ} (mask : ℕ) (h : i < str.length) :
    maskedAt str mask i = .ok (mask &&& str[i].toNat) := by
  rw [maskedAt, strAt_of_lt h]
  rfl

theorem utf8Valid_cons (first : UInt8) (rest : List UInt8) :
    utf8Valid (first :: rest) = .ok (decide (utf8ByteLen first ≤ rest.length + 1)) := rfl

/-- A string that is long enough for its first byte is decoded without a read outside of it. -/
theorem utf8ToRune_total {first : UInt8} {rest : List UInt8}
    (h : utf8ByteLen first ≤ rest.length + 1) : ∃ rune, utf8ToRune (first :: rest) = .ok rune := by
  have hfirst : strAt (first :: rest) 0 = .ok first := rfl
  have hmask : ∀ mask i, i < utf8ByteLen first →
      ∃ bits, maskedAt (first :: rest) mask i = .ok bits := by
    intro mask i hi
    exact ⟨_, maskedAt_of_lt mask (show i < (first :: rest).length from Nat.lt_of_lt_of_le hi h)⟩
  rw [utf8ToRune, utf8Valid_cons, decide_eq_true h, ok_bind, Bool.not_true,
    if_neg Bool.false_ne_true, hfirst, ok_bind]
  unfold utf8ByteLen at hmask
  split
  · rw [if_pos ‹_›] at hmask
    obtain ⟨a, ha⟩ := hmask 0x07 0 (by decide)
    obtain ⟨b, hb⟩ := hmask 0x3f 1 (by decide)
    obtain ⟨c, hc⟩ := hmask 0x3f 2 (by decide)
    obtain ⟨d, hd⟩ := hmask 0x3f 3 (by decide)
    exact ⟨_, by rw [ha, ok_bind, hb, ok_bind, hc, ok_bind, hd]; rfl⟩
  · rw [if_neg ‹_›] at hmask
    split
    · rw [if_pos ‹_›] at hmask
      obtain ⟨a, ha⟩ := hmask 0x0f 0 (by decide)
      obtain ⟨b, hb⟩ := hmask 0x3f 1 (by decide)
      obtain ⟨c, hc⟩ := hmask 0x3f 2 (by decide)
      exact ⟨_, by rw [ha, ok_bind, hb, ok_bind, hc]; rfl⟩
    · rw [if_neg ‹_›] at hmask
      split
      · rw [if_pos ‹_›] at hmask
        obtain ⟨a, ha⟩ := hmask 0x1f 0 (by decide)
        obtain ⟨b, hb⟩ := hmask 0x3f 1 (by decide)
        exact ⟨_, by rw [ha, ok_bind, hb]; rfl⟩
      · exact ⟨_, rfl⟩

/-- The decoder gives no rune for a string that is empty or too short for its first byte, and
otherwise leaves a shorter string. -/
theorem uft8NextRune_total (str : List UInt8) :
    uft8NextRune str = .ok none ∨
      ∃ rune rest, uft8NextRune str = .ok (some (rune, rest)) ∧ rest.length < str.length := by
  cases str with
  | nil => exact Or.inl rfl
  | cons first rest =>
    by_cases h : utf8ByteLen first ≤ rest.length + 1
    · obtain ⟨rune, hrune⟩ := utf8ToRune_total h
      refine Or.inr ⟨rune, (first :: rest).drop (utf8ByteLen first), ?_, ?_⟩
      · rw [uft8NextRune, utf8Valid_cons, decide_eq_true h]
        simp only [ok_bind, Bool.not_true, Bool.false_eq_true, if_false, hrune]
        rfl
      · have hpos := utf8ByteLen_pos first
        rw [List.length_drop, List.length_cons]
        omega
    · rw [uft8NextRune, utf8Valid_cons, decide_eq_false h]
      exact Or.inl rfl

theorem utf8RunesLoop_total {turns : ℕ} {str : List UInt8} (h : str.length < turns) :
    ∃ result, utf8RunesLoop turns str = .ok result := by
  induction turns generalizing str with
  | zero => omega
  | succ turns ih =>
    rw [utf8RunesLoop]
    obtain hnone | ⟨rune, rest, hsome, hlt⟩ := uft8NextRune_total str
    · exact ⟨([], str), by rw [hnone]; rfl⟩
    · obtain ⟨⟨runes, final⟩, hloop⟩ := ih (show rest.length < turns by omega)
      exact ⟨(rune :: runes, final), by rw [hsome, ok_bind]; simp only [hloop, ok_bind]; rfl⟩

/-- The bytes that start an encoding, and what the decoder takes from them. -/
theorem leadByte_one : ∀ bits < 128, (UInt8.ofNat bits &&& 0xf8 ≠ 0xf0 ∧
    UInt8.ofNat bits &&& 0xf0 ≠ 0xe0 ∧ UInt8.ofNat bits &&& 0xe0 ≠ 0xc0) ∧
    (UInt8.ofNat bits).toNat = bits := by decide

theorem leadByte_two : ∀ bits < 32, (UInt8.ofNat (bits ||| 0xc0) &&& 0xf8 ≠ 0xf0 ∧
    UInt8.ofNat (bits ||| 0xc0) &&& 0xf0 ≠ 0xe0 ∧ UInt8.ofNat (bits ||| 0xc0) &&& 0xe0 = 0xc0) ∧
    0x1f &&& (UInt8.ofNat (bits ||| 0xc0)).toNat = bits := by decide

theorem leadByte_three : ∀ bits < 16, (UInt8.ofNat (bits ||| 0xe0) &&& 0xf8 ≠ 0xf0 ∧
    UInt8.ofNat (bits ||| 0xe0) &&& 0xf0 = 0xe0) ∧
    0x0f &&& (UInt8.ofNat (bits ||| 0xe0)).toNat = bits := by decide

theorem leadByte_four : ∀ bits < 8, UInt8.ofNat (bits ||| 0xf0) &&& 0xf8 = 0xf0 ∧
    0x07 &&& (UInt8.ofNat (bits ||| 0xf0)).toNat = bits := by decide

theorem tailByte : ∀ bits < 64, 0x3f &&& (UInt8.ofNat (bits ||| 0x80)).toNat = bits := by decide

theorem and_mask (n k : ℕ) : n &&& (2 ^ k - 1) = n % 2 ^ k := Nat.and_two_pow_sub_one_eq_mod n k

/-- Six more bits behind a number. -/
theorem shiftLeft_or_tail (n : ℕ) {bits : ℕ} (h : bits < 64) :
    n <<< 6 ||| bits = n * 64 + bits := by
  rw [← Nat.shiftLeft_add_eq_or_of_lt (show bits < 2 ^ 6 from h), Nat.shiftLeft_eq]

theorem shiftLeft_or_tails (n : ℕ) {b c : ℕ} (hb : b < 64) (hc : c < 64) :
    n <<< 12 ||| b <<< 6 ||| c = (n * 64 + b) * 64 + c := by
  rw [show n <<< 12 = n <<< 6 <<< 6 from Nat.shiftLeft_add n 6 6, ← Nat.shiftLeft_or_distrib,
    shiftLeft_or_tail n hb, shiftLeft_or_tail _ hc]

theorem shiftLeft_or_threeTails (n : ℕ) {b c d : ℕ} (hb : b < 64) (hc : c < 64) (hd : d < 64) :
    n <<< 18 ||| b <<< 12 ||| c <<< 6 ||| d = ((n * 64 + b) * 64 + c) * 64 + d := by
  rw [show n <<< 18 = n <<< 12 <<< 6 from Nat.shiftLeft_add n 12 6,
    show b <<< 12 = b <<< 6 <<< 6 from Nat.shiftLeft_add b 6 6, ← Nat.shiftLeft_or_distrib,
    ← Nat.shiftLeft_or_distrib, shiftLeft_or_tails n hb hc, shiftLeft_or_tail _ hd]

section Decode

variable {a : UInt8} (b c d : UInt8) (rest : List UInt8)

theorem utf8ToRune_one (h4 : a &&& 0xf8 ≠ 0xf0) (h3 : a &&& 0xf0 ≠ 0xe0) (h2 : a &&& 0xe0 ≠ 0xc0) :
    utf8ToRune (a :: rest) = .ok a.toNat := by
  have hlen : utf8ByteLen a ≤ rest.length + 1 := by
    rw [utf8ByteLen, if_neg h4, if_neg h3, if_neg h2]
    omega
  rw [utf8ToRune, utf8Valid_cons, decide_eq_true hlen, ok_bind, Bool.not_true,
    if_neg Bool.false_ne_true, strAt_of_lt (Nat.succ_pos _), ok_bind, List.getElem_cons_zero,
    if_neg h4, if_neg h3, if_neg h2]
  rfl

theorem utf8ToRune_two (h4 : a &&& 0xf8 ≠ 0xf0) (h3 : a &&& 0xf0 ≠ 0xe0) (h2 : a &&& 0xe0 = 0xc0) :
    utf8ToRune (a :: b :: rest) = .ok ((0x1f &&& a.toNat) <<< 6 ||| (0x3f &&& b.toNat)) := by
  have hlen : utf8ByteLen a ≤ (b :: rest).length + 1 := by
    rw [utf8ByteLen, if_neg h4, if_neg h3, if_pos h2, List.length_cons]
    omega
  rw [utf8ToRune, utf8Valid_cons, decide_eq_true hlen, ok_bind, Bool.not_true,
    if_neg Bool.false_ne_true, strAt_of_lt (Nat.succ_pos _), ok_bind, List.getElem_cons_zero,
    if_neg h4, if_neg h3, if_pos h2]
  rfl

theorem utf8ToRune_three (h4 : a &&& 0xf8 ≠ 0xf0) (h3 : a &&& 0xf0 = 0xe0) :
    utf8ToRune (a :: b :: c :: rest) = .ok ((0x0f &&& a.toNat) <<< 12 |||
      (0x3f &&& b.toNat) <<< 6 ||| (0x3f &&& c.toNat)) := by
  have hlen : utf8ByteLen a ≤ (b :: c :: rest).length + 1 := by
    rw [utf8ByteLen, if_neg h4, if_pos h3, List.length_cons, List.length_cons]
    omega
  rw [utf8ToRune, utf8Valid_cons, decide_eq_true hlen, ok_bind, Bool.not_true,
    if_neg Bool.false_ne_true, strAt_of_lt (Nat.succ_pos _), ok_bind, List.getElem_cons_zero,
    if_neg h4, if_pos h3]
  rfl

theorem utf8ToRune_four (h4 : a &&& 0xf8 = 0xf0) :
    utf8ToRune (a :: b :: c :: d :: rest) = .ok ((0x07 &&& a.toNat) <<< 18 |||
      (0x3f &&& b.toNat) <<< 12 ||| (0x3f &&& c.toNat) <<< 6 ||| (0x3f &&& d.toNat)) := by
  have hlen : utf8ByteLen a ≤ (b :: c :: d :: rest).length + 1 := by
    rw [utf8ByteLen, if_pos h4, List.length_cons, List.length_cons, List.length_cons]
    omega
  rw [utf8ToRune, utf8Valid_cons, decide_eq_true hlen, ok_bind, Bool.not_true,
    if_neg Bool.false_ne_true, strAt_of_lt (Nat.succ_pos _), ok_bind, List.getElem_cons_zero,
    if_pos h4]
  rfl

end Decode

/-- A rune is encoded in the number of bytes that its first byte announces, and is the number that
the decoder makes of them. -/
theorem utf8FromRune_decode {rune : ℕ} (h : rune ≤ 0x10ffff) (rest : List UInt8) :
    ∃ first tail, utf8FromRune rune = first :: tail ∧ utf8ByteLen first = tail.length + 1 ∧
      utf8RuneLen rune = tail.length + 1 ∧
      utf8ToRune (first :: (tail ++ rest)) = .ok rune := by
  have htail : ∀ n : ℕ, 0x3f &&& (UInt8.ofNat (n &&& 0x3f ||| 0x80)).toNat = n % 64 := by
    intro n
    rw [show n &&& 0x3f = n % 64 from and_mask n 6]
    exact tailByte _ (Nat.mod_lt n (by decide))
  have hshift : ∀ n k : ℕ, n >>> k = n / 2 ^ k := Nat.shiftRight_eq_div_pow
  by_cases h1 : rune ≤ 0x7f
  · obtain ⟨⟨h4, h3, h2⟩, hvalue⟩ := leadByte_one rune (by omega)
    refine ⟨UInt8.ofNat rune, [], ?_, ?_, ?_, ?_⟩
    · rw [utf8FromRune, if_pos h1]
    · rw [utf8ByteLen, if_neg h4, if_neg h3, if_neg h2]
      rfl
    · rw [utf8RuneLen, if_pos h1]
      rfl
    · rw [List.nil_append, utf8ToRune_one rest h4 h3 h2, hvalue]
  by_cases h2 : rune ≤ 0x7ff
  · have hlead : rune >>> 6 &&& 0x1f = rune / 64 := by
      rw [hshift, show rune / 2 ^ 6 &&& 0x1f = rune / 2 ^ 6 % 32 from and_mask _ 5]
      omega
    obtain ⟨⟨hnot4, hnot3, h2'⟩, hvalue⟩ := leadByte_two (rune / 64) (by omega)
    rw [← hlead] at hnot4 hnot3 h2' hvalue
    refine ⟨UInt8.ofNat (rune >>> 6 &&& 0x1f ||| 0xc0), [UInt8.ofNat (rune &&& 0x3f ||| 0x80)],
      ?_, ?_, ?_, ?_⟩
    · rw [utf8FromRune, if_neg h1, if_pos h2]
    · rw [utf8ByteLen, if_neg hnot4, if_neg hnot3, if_pos h2']
      rfl
    · rw [utf8RuneLen, if_neg h1, if_pos h2]
      rfl
    · rw [List.singleton_append, utf8ToRune_two _ rest hnot4 hnot3 h2', hvalue, htail, hlead,
        shiftLeft_or_tail _ (Nat.mod_lt _ (by decide)), Nat.div_add_mod']
  by_cases h3 : rune ≤ 0xffff
  · have hlead : rune >>> 12 &&& 0x0f = rune / 64 / 64 := by
      rw [hshift, show rune / 2 ^ 12 &&& 0x0f = rune / 2 ^ 12 % 16 from and_mask _ 4]
      omega
    obtain ⟨⟨hnot4, h3'⟩, hvalue⟩ := leadByte_three (rune / 64 / 64) (by omega)
    rw [← hlead] at hnot4 h3' hvalue
    refine ⟨UInt8.ofNat (rune >>> 12 &&& 0x0f ||| 0xe0),
      [UInt8.ofNat (rune >>> 6 &&& 0x3f ||| 0x80), UInt8.ofNat (rune &&& 0x3f ||| 0x80)],
      ?_, ?_, ?_, ?_⟩
    · rw [utf8FromRune, if_neg h1, if_neg h2, if_pos h3]
    · rw [utf8ByteLen, if_neg hnot4, if_pos h3']
      rfl
    · rw [utf8RuneLen, if_neg h1, if_neg h2, if_pos h3]
      rfl
    · have hmod : ∀ n : ℕ, n % 64 < 64 := fun n ↦ Nat.mod_lt n (by decide)
      have hmiddle : rune >>> 6 = rune / 64 := hshift rune 6
      rw [List.cons_append, List.singleton_append, utf8ToRune_three _ _ rest hnot4 h3', hvalue,
        htail, htail, hlead, shiftLeft_or_tails _ (hmod _) (hmod _), hmiddle, Nat.div_add_mod',
        Nat.div_add_mod']
  · have hlead : rune >>> 18 &&& 0x07 = rune / 64 / 64 / 64 := by
      rw [hshift, show rune / 2 ^ 18 &&& 0x07 = rune / 2 ^ 18 % 8 from and_mask _ 3]
      omega
    obtain ⟨h4', hvalue⟩ := leadByte_four (rune / 64 / 64 / 64) (by omega)
    rw [← hlead] at h4' hvalue
    refine ⟨UInt8.ofNat (rune >>> 18 &&& 0x07 ||| 0xf0),
      [UInt8.ofNat (rune >>> 12 &&& 0x3f ||| 0x80), UInt8.ofNat (rune >>> 6 &&& 0x3f ||| 0x80),
        UInt8.ofNat (rune &&& 0x3f ||| 0x80)], ?_, ?_, ?_, ?_⟩
    · rw [utf8FromRune, if_neg h1, if_neg h2, if_neg h3, if_pos h]
    · rw [utf8ByteLen, if_pos h4']
      rfl
    · rw [utf8RuneLen, if_neg h1, if_neg h2, if_neg h3, if_pos h]
      rfl
    · have hmod : ∀ n : ℕ, n % 64 < 64 := fun n ↦ Nat.mod_lt n (by decide)
      have hsecond : rune >>> 12 = rune / 64 / 64 := by
        rw [hshift, Nat.div_div_eq_div_mul]
        rfl
      have hthird : rune >>> 6 = rune / 64 := hshift rune 6
      rw [List.cons_append, List.cons_append, List.singleton_append,
        utf8ToRune_four _ _ _ rest h4', hvalue, htail, htail, htail, hlead,
        shiftLeft_or_threeTails _ (hmod _) (hmod _) (hmod _), hsecond, hthird, Nat.div_add_mod',
        Nat.div_add_mod', Nat.div_add_mod']

/-- The decoder takes an encoded rune from the front of a string. -/
theorem uft8NextRune_utf8FromRune {rune : ℕ} (h : rune ≤ 0x10ffff) (rest : List UInt8) :
    uft8NextRune (utf8FromRune rune ++ rest) = .ok (some (rune, rest)) := by
  obtain ⟨first, tail, hbytes, hlen, -, hrune⟩ := utf8FromRune_decode h rest
  have hlong : utf8ByteLen first ≤ (tail ++ rest).length + 1 := by
    rw [hlen, List.length_append]
    omega
  have hdrop : (first :: (tail ++ rest)).drop (utf8ByteLen first) = rest := by
    rw [hlen, List.drop_succ_cons, List.drop_left]
  rw [hbytes, List.cons_append, uft8NextRune, utf8Valid_cons, decide_eq_true hlong]
  simp only [ok_bind, Bool.not_true, Bool.false_eq_true, if_false, hrune]
  rw [strAt_of_lt (Nat.succ_pos _), ok_bind, List.getElem_cons_zero, hdrop]
  rfl

theorem utf8RunesLoop_flatMap {runes : List ℕ} (h : ∀ rune ∈ runes, rune ≤ 0x10ffff) {turns : ℕ}
    (hturns : runes.length < turns) :
    utf8RunesLoop turns (runes.flatMap utf8FromRune) = .ok (runes, []) := by
  induction runes generalizing turns with
  | nil =>
    obtain ⟨turns, rfl⟩ := Nat.exists_eq_add_of_lt hturns
    rfl
  | cons rune runes ih =>
    rw [List.length_cons] at hturns
    obtain ⟨turns, rfl⟩ : ∃ n, turns = n + 1 := ⟨turns - 1, by omega⟩
    have hnext := uft8NextRune_utf8FromRune (h rune List.mem_cons_self)
      (runes.flatMap utf8FromRune)
    have hloop := ih (fun r hr ↦ h r (List.mem_cons_of_mem rune hr))
      (show runes.length < turns by omega)
    rw [List.flatMap_cons, utf8RunesLoop, hnext, ok_bind]
    simp only [hloop, ok_bind]
    rfl

theorem length_le_flatMap {runes : List ℕ} (h : ∀ rune ∈ runes, rune ≤ 0x10ffff) :
    runes.length ≤ (runes.flatMap utf8FromRune).length := by
  induction runes with
  | nil => exact Nat.le_refl 0
  | cons rune runes ih =>
    obtain ⟨first, tail, hbytes, -⟩ := utf8FromRune_decode (h rune List.mem_cons_self) []
    have hrest := ih fun r hr ↦ h r (List.mem_cons_of_mem rune hr)
    rw [List.flatMap_cons, hbytes, List.length_append, List.length_cons, List.length_cons]
    omega

/-- What is encoded is decoded as the same runes with nothing left, the first byte of an encoding
announces its length, and the iteration over any string ends without reading outside of it. -/
theorem utf8_roundTrip :
    (∀ runes : List ℕ, (∀ rune ∈ runes, rune ≤ 0x10ffff) →
      utf8Runes (runes.flatMap utf8FromRune) = .ok (runes, [])) ∧
    (∀ rune ≤ 0x10ffff, ∃ first tail, utf8FromRune rune = first :: tail ∧
      utf8ByteLen first = utf8RuneLen rune) ∧
    ∀ str, ∃ runes rest, utf8Runes str = .ok (runes, rest) := by
  refine ⟨?_, ?_, ?_⟩
  · intro runes h
    exact utf8RunesLoop_flatMap h (Nat.lt_succ_of_le (length_le_flatMap h))
  · intro rune h
    obtain ⟨first, tail, hbytes, hlen, hrune, -⟩ := utf8FromRune_decode h []
    exact ⟨first, tail, hbytes, hlen.trans hrune.symm⟩
  · intro str
    obtain ⟨⟨runes, rest⟩, h⟩ := utf8RunesLoop_total (Nat.lt_succ_self str.length)
    exact ⟨runes, rest, h⟩

end Brutal.Text
