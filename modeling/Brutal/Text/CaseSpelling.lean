import Brutal.Text.CaseWords
import Brutal.Text.Emit
import Mathlib.Data.List.Chain

/-!
# Names that two cases spell alike

The upper case of a name keeps its underscores as they are, and its constant case puts one
underscore between two words, wherever the words come from.  They are the same for names that are
written with one underscore between two words already.
-/

namespace Brutal.Text

open Base Lib

/-- Bytes that a format writes as they are. -/
def Plain (text : List UInt8) : Prop := ∀ byte ∈ text, byte ≠ 92 ∧ byte ≠ 123 ∧ byte ≠ 125

instance (text : List UInt8) : Decidable (Plain text) :=
  List.decidableBAll (fun byte ↦ byte ≠ 92 ∧ byte ≠ 123 ∧ byte ≠ 125) text

theorem scanSkipWord_ne {byte first : UInt8} {word rest : List UInt8} (hword : 0 ∉ first :: word)
    (hbyte : byte ≠ first) :
    scanSkipWord ⟨byte :: rest, false⟩ (first :: word) = (false, ⟨byte :: rest, false⟩) := by
  rw [scanSkipWord_eq hword, if_neg]
  rw [List.cons_prefix_cons]
  exact fun h ↦ hbyte h.1.symm

theorem fmtFormatLoop_byte {byte : UInt8} (h : byte ≠ 92 ∧ byte ≠ 123 ∧ byte ≠ 125) (turns : ℕ)
    (rest : List UInt8) (args : List Any) :
    fmtFormatLoop (turns + 1) ⟨byte :: rest, false⟩ false args =
      fmtFormatLoop turns ⟨rest, false⟩ false args >>= fun text ↦ .ok (byte :: text) := by
  obtain ⟨hslash, hopen, hclose⟩ := h
  have hbrace : (byte = 123 && !false) = false := by rw [decide_eq_false hopen, Bool.false_and]
  have hescape : (byte = 92 && !false) = false := by rw [decide_eq_false hslash, Bool.false_and]
  rw [fmtFormatLoop, scanEnded_cons, if_neg Bool.false_ne_true,
    scanSkipWord_ne (by decide) hopen]
  dsimp only
  rw [if_neg Bool.false_ne_true, scanSkipWord_ne (by decide) hclose]
  dsimp only
  rw [if_neg Bool.false_ne_true, scanCurr_cons, hbrace, if_neg Bool.false_ne_true, hescape,
    if_neg Bool.false_ne_true, scanNext_cons]
  rfl

theorem fmtFormatLoop_plain {text : List UInt8} (h : Plain text) (turns : ℕ) (rest : List UInt8)
    (args : List Any) :
    fmtFormatLoop (turns + text.length) ⟨text ++ rest, false⟩ false args =
      fmtFormatLoop turns ⟨rest, false⟩ false args >>= fun after ↦ .ok (text ++ after) := by
  induction text with
  | nil =>
    change fmtFormatLoop turns ⟨rest, false⟩ false args = _
    cases fmtFormatLoop turns ⟨rest, false⟩ false args <;> rfl
  | cons byte text ih =>
    have hbyte := h byte List.mem_cons_self
    have htext := ih fun other hother ↦ h other (List.mem_cons_of_mem byte hother)
    rw [List.length_cons, ← Nat.add_assoc, List.cons_append, fmtFormatLoop_byte hbyte, htext]
    cases fmtFormatLoop turns ⟨rest, false⟩ false args <;> rfl

/-- The text of a specifier between its first brace and what follows it. -/
structure Specifies (spec after : List UInt8) (fmt : Fmt) : Prop where
  first : (spec ++ after).head? ≠ some 123
  parse : fmtParse ⟨123 :: spec ++ after, false⟩ = .ok (fmt, ⟨after, false⟩)

theorem fmtFormatLoop_specifier {spec after : List UInt8} {fmt : Fmt}
    (h : Specifies spec after fmt) (turns : ℕ) (value : Any) (args : List Any) :
    fmtFormatLoop (turns + 1) ⟨123 :: spec ++ after, false⟩ false (value :: args) =
      fmtAny fmt value >>= fun text ↦ fmtFormatLoop turns ⟨after, false⟩ false args >>=
        fun rest ↦ .ok (text ++ rest) := by
  have hdouble : scanSkipWord ⟨123 :: (spec ++ after), false⟩ [123, 123] =
      (false, ⟨123 :: (spec ++ after), false⟩) := by
    rw [scanSkipWord_eq (by decide), if_neg]
    rw [List.cons_prefix_cons]
    rintro ⟨-, hprefix⟩
    cases htext : spec ++ after with
    | nil =>
      rw [htext] at hprefix
      exact absurd hprefix.length_le (by decide)
    | cons byte text =>
      rw [htext, List.cons_prefix_cons] at hprefix
      exact h.first (by rw [htext, ← hprefix.1]; rfl)
  have hparse := h.parse
  rw [List.cons_append] at hparse ⊢
  have hopens : ((123 : UInt8) = 123 && !false) = true := rfl
  rw [fmtFormatLoop, scanEnded_cons, if_neg Bool.false_ne_true, hdouble]
  dsimp only
  rw [if_neg Bool.false_ne_true, scanSkipWord_ne (by decide) (by decide)]
  dsimp only
  rw [if_neg Bool.false_ne_true, scanCurr_cons, hopens, if_pos rfl, hparse]
  rfl

/-- A format with one specifier writes the value between the texts around the specifier. -/
theorem fmtFormat_one {before spec after : List UInt8} {fmt : Fmt} (hbefore : Plain before)
    (hspec : Specifies spec after fmt) (hafter : Plain after)
    (hlength : (before ++ (123 :: spec ++ after)).length < 2 ^ 31) (value : List UInt8) :
    fmtFormat (before ++ (123 :: spec ++ after)) [.str value] =
      fmtString fmt value >>= fun text ↦ .ok (before ++ (text ++ after)) := by
  have hturns : (before ++ (123 :: spec ++ after)).length + 1 =
      spec.length + 1 + after.length + 1 + before.length := by
    simp only [List.length_append, List.length_cons]
    omega
  have hend :
      fmtFormatLoop (spec.length + 1 + after.length) ⟨after, false⟩ false [] = .ok after := by
    have hplain := fmtFormatLoop_plain hafter (spec.length + 1) [] []
    rw [List.append_nil] at hplain
    rw [hplain]
    change Except.ok (after ++ []) = _
    rw [List.append_nil]
  rw [fmtFormat, scanInit, if_pos hlength, ok_bind, hturns, fmtFormatLoop_plain hbefore,
    fmtFormatLoop_specifier hspec, hend]
  change (fmtString fmt value >>= _) >>= _ = _
  cases fmtString fmt value <;> rfl

/-- What `case_to_constant` makes of a byte of `case_to_no`. -/
def constantByte (byte : UInt8) : UInt8 := if byte = 32 then 95 else upperByte byte

theorem upperByte_toNat (c : UInt8) :
    (upperByte c).toNat = if 97 ≤ c.toNat ∧ c.toNat ≤ 122 then c.toNat - 32 else c.toNat := by
  have hc := c.toNat_lt
  simp only [upperByte, toupper, islower, Bool.and_eq_true, decide_eq_true_eq, UInt8.toNat_ofNat']
  split <;> omega

theorem lowerByte_toNat (c : UInt8) :
    (lowerByte c).toNat = if 65 ≤ c.toNat ∧ c.toNat ≤ 90 then c.toNat + 32 else c.toNat := by
  have hc := c.toNat_lt
  simp only [lowerByte, tolower, isupper, Bool.and_eq_true, decide_eq_true_eq, UInt8.toNat_ofNat']
  split <;> omega

theorem upperByte_lowerByte (c : UInt8) : upperByte (lowerByte c) = upperByte c := by
  rw [← UInt8.toNat_inj, upperByte_toNat, upperByte_toNat, lowerByte_toNat]
  split_ifs <;> omega

theorem upperByte_eq_underscore {c : UInt8} : upperByte c = 95 ↔ c = 95 := by
  have hunderscore : (95 : UInt8).toNat = 95 := rfl
  rw [← UInt8.toNat_inj, ← UInt8.toNat_inj, upperByte_toNat, hunderscore]
  split_ifs <;> omega

theorem constantByte_lowerByte {c : UInt8} (h : isSep c = false) :
    constantByte (lowerByte c) = upperByte c := by
  have hspace : lowerByte c ≠ 32 := by
    intro hlower
    have hsep := not_isSep_lowerByte h
    rw [hlower] at hsep
    cases hsep
  rw [constantByte, if_neg hspace, upperByte_lowerByte]

/-- A byte of a C identifier. -/
def isIdentByte (c : UInt8) : Bool :=
  isupper c.toNat || islower c.toNat || isdigit c || c = 95

/-- A separator in an identifier is an underscore. -/
theorem eq_underscore_of_isSep {c : UInt8} (hident : isIdentByte c = true) (hsep : isSep c = true) :
    c = 95 := by
  simp only [isSep, isblank, Bool.or_eq_true, decide_eq_true_eq] at hsep
  rcases hsep with ((((rfl | rfl) | rfl) | rfl) | rfl) | rfl
  · cases hident
  · cases hident
  · cases hident
  · rfl
  · cases hident
  · cases hident

/-- A word ends between the two bytes in a way that the upper case does not show. -/
def Breaks (first second : UInt8) : Prop :=
  (islower first.toNat = true ∧ isupper second.toNat = true) ∨ (first = 95 ∧ second = 95)

instance (first second : UInt8) : Decidable (Breaks first second) :=
  inferInstanceAs (Decidable (_ ∨ _))

/-- No capital stands behind a small letter, no underscore behind another, and none at the end. -/
def OneSpelling (name : List UInt8) : Prop :=
  name.IsChain (fun first second ↦ ¬ Breaks first second) ∧ name.getLast? ≠ some 95

instance (name : List UInt8) : Decidable (OneSpelling name) :=
  inferInstanceAs (Decidable (_ ∧ _))

theorem not_breaks_of_isSep {first second : UInt8} (hfirst : isSep first = true)
    (hsecond : isSep second = false) : ¬ Breaks first second := by
  rintro (⟨hlower, -⟩ | ⟨-, rfl⟩)
  · rw [not_islower_of_isSep hfirst] at hlower
    cases hlower
  · cases hsecond

theorem getLast?_underscore {name : List UInt8} (hident : ∀ c ∈ name, isIdentByte c = true)
    (hseps : ∀ c ∈ name, isSep c = true) (hne : name ≠ []) : name.getLast? = some 95 := by
  have hmem := List.getLast_mem hne
  rw [List.getLast?_eq_some_getLast hne, eq_underscore_of_isSep (hident _ hmem) (hseps _ hmem)]

theorem getLast?_cons_ne {c : UInt8} {rest : List UInt8} (hc : c ≠ 95) :
    (c :: rest).getLast? ≠ some 95 ↔ rest.getLast? ≠ some 95 := by
  cases rest with
  | nil =>
    simp only [List.getLast?_singleton, List.getLast?_nil, ne_eq, Option.some.injEq, reduceCtorEq,
      not_false_eq_true, iff_true]
    exact hc
  | cons next rest => rw [List.getLast?_cons_cons]

/-- The loop of `case_to_no` makes a constant of an identifier that is the identifier in upper case
if and only if the identifier has no end of a word that the upper case does not show. -/
theorem constant_caseToNoLoop_iff {turns : ℕ} {previous : UInt8} {rest : List UInt8}
    (hturns : rest.length < turns) (hident : ∀ c ∈ rest, isIdentByte c = true)
    (hprevious : ∀ c ∈ rest.head?, ¬ (previous = 95 ∧ c = 95)) :
    (caseToNoLoop turns previous ⟨rest, false⟩).map constantByte = rest.map upperByte ↔
      (previous :: rest).IsChain (fun first second ↦ ¬ Breaks first second) ∧
        rest.getLast? ≠ some 95 := by
  induction turns generalizing previous rest with
  | zero => exact absurd hturns (Nat.not_lt_zero _)
  | succ turns ih =>
    cases rest with
    | nil =>
      rw [caseToNoLoop_nil]
      simp
    | cons c rest =>
      have hrest : rest.length < turns := Nat.lt_of_succ_lt_succ hturns
      have hidentRest : ∀ other ∈ rest, isIdentByte other = true :=
        fun other hother ↦ hident other (List.mem_cons_of_mem c hother)
      cases hsep : isSep c with
      | false =>
        have hc : c ≠ 95 := by
          rintro rfl
          cases hsep
        have hih := @ih c rest hrest hidentRest fun other _ hboth ↦ hc hboth.1
        rw [caseToNoLoop_letter hsep, List.isChain_cons_cons, getLast?_cons_ne hc]
        by_cases hbreak : islower previous.toNat = true ∧ isupper c.toNat = true
        · -- the space in front of the capital becomes an underscore
          have hboth : (islower previous.toNat && isupper c.toNat) = true := by
            rw [hbreak.1, hbreak.2]
            rfl
          rw [if_pos hboth, List.singleton_append, List.map_cons, List.map_cons, List.map_cons,
            List.cons.injEq]
          constructor
          · rintro ⟨hhead, -⟩
            exact absurd (upperByte_eq_underscore.mp hhead.symm) hc
          · rintro ⟨⟨hno, -⟩, -⟩
            exact absurd (Or.inl hbreak) hno
        · have hboth : ¬ (islower previous.toNat && isupper c.toNat) = true := by
            rw [Bool.and_eq_true]
            exact hbreak
          have hno : ¬ Breaks previous c := by
            rintro (hletters | ⟨-, hunderscore⟩)
            · exact hbreak hletters
            · exact hc hunderscore
          rw [if_neg hboth, List.nil_append, List.map_cons, List.map_cons, List.cons.injEq,
            constantByte_lowerByte hsep, hih, and_assoc]
          exact and_congr_left' (by simp only [hno, not_false_eq_true])
      | true =>
        obtain rfl := eq_underscore_of_isSep (hident c List.mem_cons_self) hsep
        have hfirst : previous ≠ 95 := fun h ↦ hprevious 95 rfl ⟨h, rfl⟩
        have hno : ¬ Breaks previous 95 := by
          rintro (⟨-, hupper⟩ | ⟨h, -⟩)
          · cases hupper
          · exact hfirst h
        rw [List.isChain_cons_cons]
        cases hdrop : rest.dropWhile isSep with
        | nil =>
          have hlast : (95 :: rest).getLast? = some 95 := by
            apply getLast?_underscore hident _ (List.cons_ne_nil _ _)
            rw [List.forall_mem_cons]
            exact ⟨rfl, mem_of_dropWhile_nil hdrop⟩
          rw [caseToNoLoop_seps hsep hdrop, hlast]
          simp
        | cons next after =>
          obtain ⟨last, hlast, heq⟩ := caseToNoLoop_sep hsep hdrop turns previous
          have hnext := head_dropWhile_isSep hdrop
          rw [heq, List.map_cons, List.map_cons, List.cons.injEq]
          cases rest with
          | nil => cases hdrop
          | cons second rest =>
            cases hsecond : isSep second with
            | false =>
              rw [List.dropWhile_cons_of_neg (by rw [hsecond]; exact Bool.false_ne_true)] at hdrop
              obtain ⟨rfl, rfl⟩ := List.cons.inj hdrop
              have hih := @ih last (second :: rest) hrest hidentRest (by
                intro other hother hboth
                obtain rfl := Option.some.inj hother
                rw [hboth.2] at hnext
                cases hnext)
              have hlastBreak : ¬ Breaks last second := not_breaks_of_isSep hlast hnext
              have hbreak : ¬ Breaks 95 second := not_breaks_of_isSep rfl hnext
              rw [hih, List.isChain_cons_cons, List.isChain_cons_cons, List.getLast?_cons_cons]
              exact ⟨fun h ↦ ⟨⟨hno, hbreak, h.2.1.2⟩, h.2.2⟩,
                fun h ↦ ⟨rfl, ⟨hlastBreak, h.1.2.2⟩, h.2⟩⟩
            | true =>
              obtain rfl := eq_underscore_of_isSep (hidentRest second List.mem_cons_self) hsecond
              obtain ⟨turns, rfl⟩ : ∃ left, turns = left + 1 := ⟨turns - 1, by
                rw [List.length_cons] at hrest
                omega⟩
              rw [caseToNoLoop_word hnext (not_islower_of_isSep hlast), List.map_cons,
                List.map_cons, constantByte_lowerByte hnext, List.cons.injEq]
              constructor
              · rintro ⟨-, hhead, -⟩
                rw [upperByte_eq_underscore.mp hhead] at hnext
                cases hnext
              · rintro ⟨⟨-, hchain⟩, -⟩
                exact absurd (Or.inr ⟨rfl, rfl⟩) (List.isChain_cons_cons.mp hchain).1

/-- An identifier that starts with a letter or an underscore. -/
def IsCIdent (name : List UInt8) : Prop :=
  (∀ c ∈ name, isIdentByte c = true) ∧ ∃ c ∈ name.head?, isdigit c = false

instance (name : List UInt8) : Decidable (IsCIdent name) :=
  decidable_of_iff (name.all isIdentByte = true ∧ name.head?.any (!isdigit ·) = true) (by
    simp [IsCIdent, Option.any_eq_true])

theorem caseToConstant_eq (str : List UInt8) :
    caseToConstant str = caseToNo str >>= fun buf ↦ .ok (buf.map constantByte) := rfl

/-- The constant case of an identifier is its upper case if and only if it has one spelling. -/
theorem caseToConstant_eq_upper_iff {name : List UInt8} (hident : IsCIdent name)
    (hlength : name.length < 2 ^ 31) :
    caseToConstant name = .ok (name.map upperByte) ↔ OneSpelling name := by
  have hblank : ∀ c ∈ name.head?, isblank c = false := by
    intro c hc
    by_contra hblank
    rw [Bool.not_eq_false] at hblank
    have hunderscore := eq_underscore_of_isSep (hident.1 c (List.mem_of_mem_head? hc))
      (isSep_of_isblank c hblank)
    rw [hunderscore] at hblank
    cases hblank
  have hcall : caseToNo name = .ok (caseToNoLoop (name.length + 1) 0 ⟨name, false⟩) := by
    rw [caseToNo, scanInit, if_pos hlength, ok_bind, scanEatMatch_false]
    cases name with
    | nil => rfl
    | cons c rest =>
      have hc : ¬ isblank c = true := by
        rw [hblank c rfl]
        exact Bool.false_ne_true
      dsimp only
      rw [List.takeWhile_cons_of_neg hc, List.dropWhile_cons_of_neg hc]
      rfl
  have hzero : ∀ c, ¬ Breaks 0 c := by
    rintro c (⟨hlower, -⟩ | ⟨hzero, -⟩)
    · cases hlower
    · cases hzero
  have hstart : (0 :: name).IsChain (fun first second ↦ ¬ Breaks first second) ↔
      name.IsChain fun first second ↦ ¬ Breaks first second := by
    rw [List.isChain_cons]
    exact and_iff_right fun c _ ↦ hzero c
  rw [caseToConstant_eq, hcall, ok_bind, Except.ok.injEq, OneSpelling, ← hstart]
  exact constant_caseToNoLoop_iff (Nat.lt_succ_self _) hident.1 fun c _ hboth ↦ by cases hboth.1

end Brutal.Text
