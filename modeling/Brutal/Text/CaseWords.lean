import Brutal.Text.Case

/-!
# The words of a name

`case_to_no` takes a name apart into words, which the other cases write with another byte in
between.  It skips blanks at the start of a name and drops all separators at its end, but a
separator of another kind at the start becomes a space, as if there was a word in front of it.
-/

namespace Brutal.Text

open Base Lib

/-- `case_to_dot` -/
def caseToDot : List UInt8 → Except Fault (List UInt8) := caseSpaced 46

/-- `case_to_param` -/
def caseToParam : List UInt8 → Except Fault (List UInt8) := caseSpaced 45

/-- `case_to_path` -/
def caseToPath : List UInt8 → Except Fault (List UInt8) := caseSpaced 47

/-- `case_to_snake` -/
def caseToSnake : List UInt8 → Except Fault (List UInt8) := caseSpaced 95

attribute [local grind =] isSep caseToNoLoop

theorem not_islower_of_isSep {c : UInt8} (h : isSep c = true) : islower c.toNat = false := by
  simp only [isSep, isblank, Bool.or_eq_true, decide_eq_true_eq] at h
  rcases h with ((((rfl | rfl) | rfl) | rfl) | rfl) | rfl <;> rfl

theorem lowerByte_of_not_isupper {c : UInt8} (h : isupper c.toNat = false) : lowerByte c = c := by
  rw [lowerByte, tolower, h, if_neg Bool.false_ne_true, UInt8.ofNat_toNat]

theorem lowerByte_toNat_of_isupper {c : UInt8} (h : isupper c.toNat = true) :
    97 ≤ (lowerByte c).toNat ∧ (lowerByte c).toNat ≤ 122 := by
  rw [lowerByte, tolower, if_pos h, UInt8.toNat_ofNat']
  simp only [isupper, Bool.and_eq_true, decide_eq_true_eq] at h
  omega

theorem not_isupper_lowerByte (c : UInt8) : isupper (lowerByte c).toNat = false := by
  cases h : isupper c.toNat with
  | true =>
    have hrange := lowerByte_toNat_of_isupper h
    simp only [isupper, Bool.and_eq_false_iff, decide_eq_false_iff_not]
    omega
  | false => rwa [lowerByte_of_not_isupper h]

theorem not_isSep_lowerByte {c : UInt8} (h : isSep c = false) : isSep (lowerByte c) = false := by
  cases hupper : isupper c.toNat with
  | false => rwa [lowerByte_of_not_isupper hupper]
  | true =>
    have hrange := lowerByte_toNat_of_isupper hupper
    by_contra hsep
    rw [Bool.not_eq_false] at hsep
    simp only [isSep, isblank, Bool.or_eq_true, decide_eq_true_eq] at hsep
    rcases hsep with ((((hc | hc) | hc) | hc) | hc) | hc <;>
      (rw [hc] at hrange; revert hrange; decide)

theorem caseToNoLoop_nil (turns : ℕ) (previous : UInt8) :
    caseToNoLoop turns previous ⟨[], false⟩ = [] := by
  cases turns <;> rfl

theorem caseToNoLoop_letter {c : UInt8} (h : isSep c = false) (turns : ℕ) (previous : UInt8)
    (rest : List UInt8) :
    caseToNoLoop (turns + 1) previous ⟨c :: rest, false⟩ =
      (if islower previous.toNat && isupper c.toNat then [32] else []) ++
        lowerByte c :: caseToNoLoop turns c ⟨rest, false⟩ := by
  rw [caseToNoLoop, scanEnded_cons, if_neg Bool.false_ne_true]
  dsimp only
  rw [scanCurr_cons, h, if_neg Bool.false_ne_true, scanNext_cons]

/-- Separators up to the end leave nothing. -/
theorem caseToNoLoop_seps {c : UInt8} {rest : List UInt8} (h : isSep c = true)
    (hrest : rest.dropWhile isSep = []) (turns : ℕ) (previous : UInt8) :
    caseToNoLoop (turns + 1) previous ⟨c :: rest, false⟩ = [] := by
  rw [caseToNoLoop, scanEnded_cons, if_neg Bool.false_ne_true]
  dsimp only
  rw [scanCurr_cons, if_pos h, scanEatMatch_false]
  dsimp only
  rw [List.dropWhile_cons_of_pos h, hrest, caseToNoLoop_nil]
  rfl

/-- Separators in front of a word leave a space. -/
theorem caseToNoLoop_sep {c next : UInt8} {rest after : List UInt8} (h : isSep c = true)
    (hrest : rest.dropWhile isSep = next :: after) (turns : ℕ) (previous : UInt8) :
    ∃ last, isSep last = true ∧ caseToNoLoop (turns + 1) previous ⟨c :: rest, false⟩ =
      32 :: caseToNoLoop turns last ⟨next :: after, false⟩ := by
  refine ⟨((c :: rest).takeWhile isSep).getLastD c, ?_, ?_⟩
  · rw [List.getLastD_eq_getLast?]
    cases hlast : ((c :: rest).takeWhile isSep).getLast? with
    | none => exact h
    | some last => exact List.mem_takeWhile_imp (List.mem_of_getLast? hlast)
  · rw [caseToNoLoop, scanEnded_cons, if_neg Bool.false_ne_true]
    dsimp only
    rw [scanCurr_cons, if_pos h, scanEatMatch_false]
    dsimp only
    rw [List.dropWhile_cons_of_pos h, hrest, scanEnded_cons, if_neg Bool.false_ne_true,
      List.singleton_append]

/-- Behind a separator a word has no space in front. -/
theorem caseToNoLoop_word {c previous : UInt8} (h : isSep c = false)
    (hprevious : islower previous.toNat = false) (turns : ℕ) (rest : List UInt8) :
    caseToNoLoop (turns + 1) previous ⟨c :: rest, false⟩ =
      lowerByte c :: caseToNoLoop turns c ⟨rest, false⟩ := by
  rw [caseToNoLoop_letter h, hprevious, Bool.false_and, if_neg Bool.false_ne_true, List.nil_append]

theorem head_dropWhile_isSep {rest after : List UInt8} {next : UInt8}
    (h : rest.dropWhile isSep = next :: after) : isSep next = false := by
  have hhead := List.head?_dropWhile_not isSep rest
  rw [h] at hhead
  exact hhead

/-- Bytes of words without upper-case letters, with single spaces in front of words only. -/
inductive SpacedWords : List UInt8 → Prop where
  | nil : SpacedWords []
  | letter {c : UInt8} {rest : List UInt8} (hsep : isSep c = false)
    (hlower : isupper c.toNat = false) (hrest : SpacedWords rest) : SpacedWords (c :: rest)
  | space {c : UInt8} {rest : List UInt8} (hsep : isSep c = false)
    (hrest : SpacedWords (c :: rest)) : SpacedWords (32 :: c :: rest)

theorem caseToNoLoop_spacedWords {turns : ℕ} {previous : UInt8} {rest : List UInt8}
    (h : rest.length < turns) : SpacedWords (caseToNoLoop turns previous ⟨rest, false⟩) := by
  induction turns generalizing previous rest with
  | zero => exact absurd h (Nat.not_lt_zero _)
  | succ turns ih =>
    cases rest with
    | nil =>
      rw [caseToNoLoop_nil]
      exact .nil
    | cons c rest =>
      have hrest : rest.length < turns := Nat.lt_of_succ_lt_succ h
      cases hsep : isSep c with
      | false =>
        have hword := SpacedWords.letter (not_isSep_lowerByte hsep) (not_isupper_lowerByte c)
          (@ih c rest hrest)
        rw [caseToNoLoop_letter hsep]
        split
        · exact .space (not_isSep_lowerByte hsep) hword
        · exact hword
      | true =>
        cases hdrop : rest.dropWhile isSep with
        | nil =>
          rw [caseToNoLoop_seps hsep hdrop]
          exact .nil
        | cons next after =>
          have hle := rest.length_dropWhile_le isSep
          rw [hdrop] at hle
          obtain ⟨last, hlast, heq⟩ := caseToNoLoop_sep hsep hdrop turns previous
          have hwords := @ih last (next :: after) (lt_of_le_of_lt hle hrest)
          obtain ⟨turns, rfl⟩ : ∃ left, turns = left + 1 := ⟨turns - 1, by omega⟩
          have hnext := head_dropWhile_isSep hdrop
          rw [heq]
          rw [caseToNoLoop_word hnext (not_islower_of_isSep hlast)] at hwords ⊢
          exact .space (not_isSep_lowerByte hnext) hwords

/-- Whatever separator stands for the spaces, the loop puts them back. -/
theorem SpacedWords.caseToNoLoop_map {text : List UInt8} (h : SpacedWords text) {space : UInt8}
    (hspace : isSep space = true) {turns : ℕ} (hturns : text.length < turns) (previous : UInt8) :
    caseToNoLoop turns previous
      ⟨text.map fun byte ↦ if byte = 32 then space else byte, false⟩ = text := by
  have hkeep {c : UInt8} (hsep : isSep c = false) : (if c = 32 then space else c) = c := by
    apply if_neg
    rintro rfl
    cases hsep
  induction h generalizing turns previous with
  | nil => exact caseToNoLoop_nil turns previous
  | @letter c rest hsep hlower hrest ih =>
    obtain ⟨turns, rfl⟩ : ∃ left, turns = left + 1 := ⟨turns - 1, by omega⟩
    rw [List.map_cons, hkeep hsep, caseToNoLoop_letter hsep, hlower, Bool.and_false,
      if_neg Bool.false_ne_true, List.nil_append, lowerByte_of_not_isupper hlower,
      ih (Nat.lt_of_succ_lt_succ hturns)]
  | @space c rest hsep hrest ih =>
    obtain ⟨turns, rfl⟩ : ∃ left, turns = left + 1 := ⟨turns - 1, by omega⟩
    have hdrop : ((c :: rest).map fun byte ↦ if byte = 32 then space else byte).dropWhile isSep =
        c :: rest.map fun byte ↦ if byte = 32 then space else byte := by
      rw [List.map_cons, hkeep hsep]
      exact List.dropWhile_cons_of_neg (by rw [hsep]; exact Bool.false_ne_true)
    obtain ⟨last, -, heq⟩ := caseToNoLoop_sep hspace hdrop turns previous
    have hword := ih (Nat.lt_of_succ_lt_succ hturns) last
    rw [List.map_cons, hkeep hsep] at hword
    rw [List.map_cons, if_pos rfl, heq, hword]

/-- No upper-case letter, and no separator but single spaces between words. -/
structure NormalForm (text : List UInt8) : Prop where
  lower : ∀ byte ∈ text, isupper byte.toNat = false
  spaces : ∀ byte ∈ text, isSep byte = true → byte = 32
  single : ¬ [32, 32] <:+: text
  head : text.head? ≠ some 32
  last : text.getLast? ≠ some 32

theorem SpacedWords.normalForm {text : List UInt8} (h : SpacedWords text)
    (hhead : text.head? ≠ some 32) : NormalForm text := by
  have hne {c : UInt8} (hsep : isSep c = false) : c ≠ 32 := by
    rintro rfl
    cases hsep
  have hwords : (∀ byte ∈ text, isupper byte.toNat = false) ∧
      (∀ byte ∈ text, isSep byte = true → byte = 32) ∧
      ¬ [32, 32] <:+: text ∧ text.getLast? ≠ some 32 := by
    clear hhead
    induction h with
    | nil => exact ⟨by simp, by simp, by simp, by simp⟩
    | @letter c rest hsep hlower hrest ih =>
      obtain ⟨hlowers, hspaces, hsingle, hlast⟩ := ih
      refine ⟨?_, ?_, ?_, ?_⟩
      · rw [List.forall_mem_cons]
        exact ⟨hlower, hlowers⟩
      · rw [List.forall_mem_cons]
        refine ⟨fun hc ↦ ?_, hspaces⟩
        rw [hsep] at hc
        cases hc
      · rw [List.infix_cons_iff, List.cons_prefix_cons]
        rintro (⟨hc, -⟩ | hinner)
        · exact hne hsep hc.symm
        · exact hsingle hinner
      · cases rest with
        | nil => simpa using hne hsep
        | cons second rest => rwa [List.getLast?_cons_cons]
    | @space c rest hsep hrest ih =>
      obtain ⟨hlowers, hspaces, hsingle, hlast⟩ := ih
      refine ⟨?_, ?_, ?_, ?_⟩
      · rw [List.forall_mem_cons]
        exact ⟨rfl, hlowers⟩
      · rw [List.forall_mem_cons]
        exact ⟨fun _ ↦ rfl, hspaces⟩
      · rw [List.infix_cons_iff, List.cons_prefix_cons, List.cons_prefix_cons]
        rintro (⟨-, hc, -⟩ | hinner)
        · exact hne hsep hc.symm
        · exact hsingle hinner
      · rwa [List.getLast?_cons_cons]
  exact ⟨hwords.1, hwords.2.1, hwords.2.2.1, hhead, hwords.2.2.2⟩

/-- The number of words that start in a text behind a byte. -/
def wordStarts : UInt8 → List UInt8 → ℕ
  | _, [] => 0
  | previous, c :: rest =>
    (if !isSep c && (isSep previous || islower previous.toNat && isupper c.toNat) then 1 else 0) +
      wordStarts c rest

/-- The length of the words of a string with one byte in between. -/
def joinedLength (str : List UInt8) : ℕ :=
  (str.countP fun c ↦ !isSep c) + (wordStarts 32 str - 1)

attribute [local grind =] wordStarts

theorem wordStarts_sep {c : UInt8} (h : isSep c = true) (previous : UInt8) (rest : List UInt8) :
    wordStarts previous (c :: rest) = wordStarts c rest := by
  grind

theorem countP_letter_sep {c : UInt8} (h : isSep c = true) (rest : List UInt8) :
    (c :: rest).countP (fun c ↦ !isSep c) = rest.countP fun c ↦ !isSep c :=
  List.countP_cons_of_neg (by rw [h]; exact Bool.false_ne_true)

/-- Separators in front of a text are no words. -/
theorem wordStarts_dropWhile {p : UInt8 → Bool} (hp : ∀ c, p c = true → isSep c = true)
    {previous last : UInt8} (hprevious : isSep previous = true) (hlast : isSep last = true)
    (rest : List UInt8) :
    wordStarts previous rest = wordStarts last (rest.dropWhile p) ∧
      rest.countP (fun c ↦ !isSep c) = (rest.dropWhile p).countP fun c ↦ !isSep c := by
  induction rest generalizing previous with
  | nil => exact ⟨rfl, rfl⟩
  | cons c rest ih =>
    cases hdrop : p c with
    | true =>
      have hsep := hp c hdrop
      rw [wordStarts_sep hsep, countP_letter_sep hsep, List.dropWhile_cons_of_pos hdrop]
      exact ih hsep
    | false =>
      rw [List.dropWhile_cons_of_neg (by rw [hdrop]; exact Bool.false_ne_true), wordStarts,
        wordStarts, hprevious, hlast]
      exact ⟨rfl, rfl⟩

/-- The loop writes the letters and a space for every word, unless the word is the first one behind
a separator that was scanned before. -/
theorem length_caseToNoLoop {turns : ℕ} {previous : UInt8} {rest : List UInt8}
    (h : rest.length < turns) :
    (caseToNoLoop turns previous ⟨rest, false⟩).length +
        (if isSep previous && rest.head?.any (!isSep ·) then 1 else 0) =
      rest.countP (fun c ↦ !isSep c) + wordStarts previous rest := by
  induction turns generalizing previous rest with
  | zero => exact absurd h (Nat.not_lt_zero _)
  | succ turns ih =>
    cases rest with
    | nil => simp [caseToNoLoop_nil, wordStarts]
    | cons c rest =>
      have hrest : rest.length < turns := Nat.lt_of_succ_lt_succ h
      cases hsep : isSep c with
      | false =>
        have hinner := @ih c rest hrest
        rw [hsep, Bool.false_and, if_neg Bool.false_ne_true, Nat.add_zero] at hinner
        rw [caseToNoLoop_letter hsep, List.length_append, List.length_cons, hinner,
          List.countP_cons_of_pos (by rw [hsep]; rfl), wordStarts, List.head?_cons, Option.any_some,
          hsep, Bool.not_false, Bool.and_true, Bool.true_and]
        cases hprevious : isSep previous with
        | true =>
          rw [not_islower_of_isSep hprevious]
          simp only [Bool.false_and, Bool.true_or, if_true, Bool.false_eq_true, if_false,
            List.length_nil]
          omega
        | false =>
          rw [Bool.false_or, if_neg Bool.false_ne_true]
          split
          · rw [List.length_singleton]
            omega
          · rw [List.length_nil]
            omega
      | true =>
        rw [List.head?_cons, Option.any_some, hsep, Bool.not_true, Bool.and_false,
          if_neg Bool.false_ne_true, Nat.add_zero, wordStarts_sep hsep, countP_letter_sep hsep]
        cases hdrop : rest.dropWhile isSep with
        | nil =>
          obtain ⟨hstarts, hcount⟩ := wordStarts_dropWhile (fun _ ↦ id) hsep hsep rest
          rw [caseToNoLoop_seps hsep hdrop, hstarts, hcount, hdrop]
          rfl
        | cons next after =>
          have hle := rest.length_dropWhile_le isSep
          rw [hdrop] at hle
          obtain ⟨last, hlast, heq⟩ := caseToNoLoop_sep hsep hdrop turns previous
          obtain ⟨hstarts, hcount⟩ := wordStarts_dropWhile (fun _ ↦ id) hsep hlast rest
          have hinner := @ih last (next :: after) (lt_of_le_of_lt hle hrest)
          rw [List.head?_cons, Option.any_some, hlast, head_dropWhile_isSep hdrop, Bool.not_false,
            Bool.and_self, if_pos rfl] at hinner
          rw [heq, List.length_cons, hinner, hstarts, hcount, hdrop]

theorem isSep_of_isblank (c : UInt8) (h : isblank c = true) : isSep c = true := by
  rw [isSep, h]
  rfl

/-- The first byte that is no blank is no separator, or there are only separators. -/
def StartsWithWord (str : List UInt8) : Prop :=
  ∀ c ∈ (str.dropWhile isblank).head?, isSep c = true → ∀ byte ∈ str, isSep byte = true

/-- What `case_to_no` comes to: nothing, words, or a space in front of words. -/
inductive NoCase (str : List UInt8) : Prop where
  | empty (hseps : ∀ byte ∈ str, isSep byte = true) (hcall : caseToNo str = .ok [])
  | words {c : UInt8} {rest : List UInt8} (hdrop : str.dropWhile isblank = c :: rest)
    (hsep : isSep c = false)
    (hcall : caseToNo str = .ok (caseToNoLoop (str.length + 1) 32 ⟨c :: rest, false⟩))
  | space {out : List UInt8} (hstart : ¬ StartsWithWord str)
    (hcall : caseToNo str = .ok (32 :: out))

theorem caseToNo_loop {str : List UInt8} (h : str.length < 2 ^ 31) :
    ∃ previous, islower previous.toNat = false ∧ caseToNo str =
      .ok (caseToNoLoop (str.length + 1) previous ⟨str.dropWhile isblank, false⟩) := by
  refine ⟨(str.takeWhile isblank).getLastD 0, ?_, ?_⟩
  · rw [List.getLastD_eq_getLast?]
    cases hlast : (str.takeWhile isblank).getLast? with
    | none => rfl
    | some last =>
      have hblank := List.mem_takeWhile_imp (List.mem_of_getLast? hlast)
      exact not_islower_of_isSep (isSep_of_isblank last hblank)
  · rw [caseToNo, scanInit, if_pos h, ok_bind, scanEatMatch_false]
    rfl

theorem mem_of_dropWhile_nil {p : UInt8 → Bool} {rest : List UInt8} (h : rest.dropWhile p = []) :
    ∀ byte ∈ rest, p byte = true := List.dropWhile_eq_nil_iff.mp h

theorem noCase {str : List UInt8} (h : str.length < 2 ^ 31) : NoCase str := by
  obtain ⟨previous, hprevious, hcall⟩ := caseToNo_loop h
  have hblanks : ∀ byte ∈ str.takeWhile isblank, isSep byte = true :=
    fun byte hbyte ↦ isSep_of_isblank byte (List.mem_takeWhile_imp hbyte)
  have hsplit := List.takeWhile_append_dropWhile (p := isblank) (l := str)
  cases hdrop : str.dropWhile isblank with
  | nil =>
    rw [hdrop, caseToNoLoop_nil] at hcall
    exact .empty (fun byte hbyte ↦ isSep_of_isblank byte (mem_of_dropWhile_nil hdrop byte hbyte))
      hcall
  | cons c rest =>
    rw [hdrop] at hcall
    cases hsep : isSep c with
    | false =>
      rw [caseToNoLoop_word hsep hprevious, ← @caseToNoLoop_word c 32 hsep rfl] at hcall
      exact .words hdrop hsep hcall
    | true =>
      cases hrest : rest.dropWhile isSep with
      | nil =>
        rw [caseToNoLoop_seps hsep hrest] at hcall
        refine .empty ?_ hcall
        rw [← hsplit, hdrop, List.forall_mem_append, List.forall_mem_cons]
        exact ⟨hblanks, hsep, mem_of_dropWhile_nil hrest⟩
      | cons next after =>
        obtain ⟨last, -, heq⟩ := caseToNoLoop_sep hsep hrest str.length previous
        rw [heq] at hcall
        refine .space (fun hstart ↦ ?_) hcall
        have hseps := hstart c (by rw [hdrop]; rfl) hsep
        have hnext : next ∈ str := by
          have hmem : next ∈ rest.dropWhile isSep := hrest ▸ List.mem_cons_self
          rw [← hsplit, hdrop, List.mem_append, List.mem_cons]
          exact Or.inr (Or.inr ((List.dropWhile_suffix isSep).subset hmem))
        have hnot := head_dropWhile_isSep hrest
        rw [hseps next hnext] at hnot
        cases hnot

/-- Words in between of which stands a separator are put in normal form. -/
theorem SpacedWords.caseToNo_map {text : List UInt8} (h : SpacedWords text)
    (hhead : text.head? ≠ some 32) (hlength : text.length < 2 ^ 31) {space : UInt8}
    (hspace : isSep space = true) :
    caseToNo (text.map fun byte ↦ if byte = 32 then space else byte) = .ok text := by
  have hdrop : (text.map fun byte ↦ if byte = 32 then space else byte).dropWhile isblank =
      text.map fun byte ↦ if byte = 32 then space else byte := by
    cases h with
    | nil => rfl
    | space => exact absurd rfl hhead
    | @letter c rest hsep hlower hrest =>
      have hc : c ≠ 32 := by
        rintro rfl
        cases hsep
      rw [List.map_cons, if_neg hc]
      refine List.dropWhile_cons_of_neg fun hblank ↦ ?_
      rw [isSep_of_isblank c hblank] at hsep
      cases hsep
  obtain ⟨previous, -, hcall⟩ := @caseToNo_loop (text.map fun byte ↦
    if byte = 32 then space else byte) (by rwa [List.length_map])
  rw [hcall, hdrop, h.caseToNoLoop_map hspace (by rw [List.length_map]; omega)]

/-- The result is in normal form, `case_to_no` leaves it as it is, and gives it for the other
spellings of the string, too. -/
structure Canonical (str out : List UInt8) : Prop where
  no : caseToNo str = .ok out
  normal : NormalForm out
  again : caseToNo out = .ok out
  others : ∀ change ∈ [caseToSnake, caseToParam, caseToDot, caseToPath],
    ∃ text, change str = .ok text ∧ caseToNo text = .ok out

theorem SpacedWords.canonical {str out : List UInt8} (h : SpacedWords out)
    (hcall : caseToNo str = .ok out) (hhead : out.head? ≠ some 32) (hlength : out.length < 2 ^ 31) :
    Canonical str out := by
  have hspaced {space : UInt8} (hspace : isSep space = true) :
      ∃ text, caseSpaced space str = .ok text ∧ caseToNo text = .ok out := by
    refine ⟨_, ?_, h.caseToNo_map hhead hlength hspace⟩
    rw [caseSpaced, hcall, ok_bind]
    rfl
  refine ⟨hcall, h.normalForm hhead, ?_, ?_⟩
  · have hsame := @SpacedWords.caseToNo_map _ h hhead hlength 32 rfl
    have hid : out.map (fun byte ↦ if byte = 32 then 32 else byte) = out := by
      refine (List.map_congr_left fun byte _ ↦ ?_).trans (List.map_id out)
      split
      next hspace => exact hspace.symm
      next => rfl
    rwa [hid] at hsame
  · simp only [List.forall_mem_cons, List.not_mem_nil, false_imp_iff, implies_true, and_true]
    exact ⟨hspaced rfl, hspaced rfl, hspaced rfl, hspaced rfl⟩

theorem joinedLength_of_seps {str : List UInt8} (h : ∀ byte ∈ str, isSep byte = true) :
    joinedLength str = 0 := by
  obtain ⟨hstarts, hcount⟩ := @wordStarts_dropWhile _ (fun _ ↦ id) 32 32 rfl
    rfl str
  rw [joinedLength, hstarts, hcount, List.dropWhile_eq_nil_iff.mpr h]
  rfl

theorem length_words {str rest : List UInt8} {c : UInt8} (hdrop : str.dropWhile isblank = c :: rest)
    (hsep : isSep c = false) :
    (caseToNoLoop (str.length + 1) 32 ⟨c :: rest, false⟩).length = joinedLength str := by
  have hle := str.length_dropWhile_le isblank
  rw [hdrop] at hle
  have hlength := @length_caseToNoLoop (str.length + 1) 32 (c :: rest) (Nat.lt_succ_of_le hle)
  obtain ⟨hstarts, hcount⟩ := @wordStarts_dropWhile _ isSep_of_isblank 32 32 rfl
    rfl str
  have hspace : (isSep 32 && !false) = true := rfl
  rw [List.head?_cons, Option.any_some, hsep, hspace, if_pos rfl] at hlength
  have hfirst : 1 ≤ wordStarts 32 (c :: rest) := by
    rw [wordStarts, hsep]
    exact Nat.le_add_right 1 _
  rw [hdrop] at hstarts hcount
  rw [joinedLength, hstarts, hcount]
  omega

/-- Names are canonical if and only if no separator but blanks stands in front of their first word,
and they and their words joined are no longer than a scanner can take. -/
theorem caseToNo_canonical_iff (str : List UInt8) :
    (∃ out, Canonical str out) ↔
      StartsWithWord str ∧ str.length < 2 ^ 31 ∧ joinedLength str < 2 ^ 31 := by
  have hshort {text out : List UInt8} (hcall : caseToNo text = .ok out) : text.length < 2 ^ 31 := by
    obtain ⟨scan, hinit, -⟩ := bind_eq_ok.mp hcall
    by_contra hlong
    rw [scanInit, if_neg hlong] at hinit
    cases hinit
  constructor
  · rintro ⟨out, hcanonical⟩
    have hlength := hshort hcanonical.no
    cases noCase hlength with
    | empty hseps hcall =>
      refine ⟨fun _ _ _ ↦ hseps, hlength, ?_⟩
      rw [joinedLength_of_seps hseps]
      decide
    | words hdrop hsep hcall =>
      refine ⟨fun first hfirst hfirstSep ↦ ?_, hlength, ?_⟩
      · rw [hdrop, List.head?_cons, Option.mem_def, Option.some.injEq] at hfirst
        rw [← hfirst, hsep] at hfirstSep
        cases hfirstSep
      · rw [← length_words hdrop hsep]
        apply hshort
        rw [hcanonical.no, Except.ok.injEq] at hcall
        rw [← hcall]
        exact hcanonical.again
    | space hstart hcall =>
      rw [hcanonical.no, Except.ok.injEq] at hcall
      refine absurd ?_ hcanonical.normal.head
      rw [hcall]
      rfl
  · rintro ⟨hstart, hlength, hjoined⟩
    cases noCase hlength with
    | empty hseps hcall => exact ⟨[], SpacedWords.nil.canonical hcall (by decide) (by decide)⟩
    | @words c rest hdrop hsep hcall =>
      have hle := str.length_dropWhile_le isblank
      rw [hdrop] at hle
      refine ⟨_, (caseToNoLoop_spacedWords (Nat.lt_succ_of_le hle)).canonical hcall ?_ ?_⟩
      · rw [caseToNoLoop_word hsep rfl, List.head?_cons, Ne, Option.some.injEq]
        intro hspace
        have hnot := not_isSep_lowerByte hsep
        rw [hspace] at hnot
        cases hnot
      · rwa [length_words hdrop hsep]
    | space hnot hcall => exact absurd hstart hnot

/-- `_a` becomes a word behind a space, and only then the word. -/
theorem caseToNo_canonical_fails : ¬ ∀ str : List UInt8, (∀ byte ∈ str, byte < 128) →
    ∃ out, Canonical str out := by
  intro h
  obtain ⟨out, hcanonical⟩ := h [95, 97] (by simp)
  have hshort : ([95, 97] : List UInt8).length < 2 ^ 31 := by decide
  have hcall : caseToNo [95, 97] = .ok [32, 97] := by
    rw [caseToNo, scanInit, if_pos hshort, ok_bind]
    rfl
  rw [hcanonical.no, Except.ok.injEq] at hcall
  refine absurd ?_ hcanonical.normal.head
  rw [hcall]
  rfl

end Brutal.Text
