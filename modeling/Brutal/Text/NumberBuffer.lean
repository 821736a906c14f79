import Brutal.Text.Printf

/-!
# The buffer of a number

`fmt_signed` and `fmt_unsigned` build a number in a buffer of 1024 bytes.  How many bytes they
store there depends on the width and the precision of the format, which come from the format string
without a bound.  Nothing is known of the stores of a run in which a number overflows.
-/

namespace Brutal.Text

open Base Lib

/-- A call of `fmt_signed` or of `fmt_unsigned`, or a fault that comes before the next one. -/
inductive NumberCall where
  | signed (fmt : Fmt) (value : ℤ)
  | unsigned (fmt : Fmt) (value : ℕ)
  | fault (fault : Fault)
deriving DecidableEq, Repr

/-- How many characters a format asks for, for a number with a sign of the given length. -/
def numberSize (fmt : Fmt) (value sign : ℕ) : ℕ :=
  max fmt.width.toNat (max (fmtPrecision fmt).1.toNat (Nat.digits (fmtBase fmt) value).length +
    (if fmt.withPrefix then 2 else 0) + sign)

/-- The faults behind which a store may be anywhere. -/
def leaves : Fault → Bool
  | .outOfBounds | .overflow => true
  | _ => false

/-- A call asks for no more characters than there are bytes in the buffer, and its number has a
negation. -/
def NumberCall.Fits : NumberCall → Prop
  | .signed fmt value => value ≠ -2 ^ 63 ∧
    numberSize fmt value.natAbs (if value < 0 ∨ fmt.prefixPlus = true then 1 else 0) ≤ fmtBufSize
  | .unsigned fmt value => numberSize fmt value (if fmt.prefixPlus then 1 else 0) ≤ fmtBufSize
  | .fault cause => leaves cause = false

/-- The fault with which a part of a run stops. -/
def faultCalls {Value : Type} : Except Fault Value → List NumberCall
  | .ok _ => []
  | .error fault => [.fault fault]

/-- The calls that `fmt_any` makes. -/
def fmtAnyCalls (fmt : Fmt) : Any → List NumberCall
  | .int value => if fmt.type = .char then [] else [.signed fmt value]
  | .uint value => if fmt.type = .char then [] else [.unsigned fmt value]
  | .ptr value => [.unsigned fmt value]
  | .str value => faultCalls (fmtString fmt value)
  | .bool _ => []

/-- The calls that `fmt_vprintf` makes for an argument. -/
def fmtPrintfCalls (type : FmtPrintfType) (fmt : Fmt) : VaArg → List NumberCall
  | .word bits =>
    match type with
    | .int => [.signed fmt bits.toUInt32.toBitVec.toInt]
    | .long | .longlong => [.signed fmt bits.toBitVec.toInt]
    | .uint => [.unsigned fmt bits.toUInt32.toNat]
    | .ulong | .ulonglong | .ptr => [.unsigned fmt bits.toNat]
    | .string => [.fault .panic]
  | .str value =>
    match type with
    | .string => faultCalls (fmtString fmt value)
    | _ => [.fault .panic]

/-- A value was formatted, or the stores behind its fault may be anywhere; otherwise the program
has stopped. -/
def goesOn (result : Except Fault (List UInt8)) : Bool :=
  match result with
  | .ok _ => true
  | .error fault => leaves fault

/-- The calls of the loop of `fmt_format`. -/
def fmtFormatCallsLoop : ℕ → Scan → Bool → List Any → List NumberCall
  | 0, _, _, _ => []
  | turns + 1, scan, skipFmt, args =>
    if scanEnded scan then []
    else
      match scanSkipWord scan [123, 123] with
      | (true, scan) => fmtFormatCallsLoop turns scan false args
      | (false, scan) =>
        match scanSkipWord scan [125, 125] with
        | (true, scan) => fmtFormatCallsLoop turns scan false args
        | (false, scan) =>
          if scanCurr scan = 123 && !skipFmt then
            match fmtParse scan, args with
            | .ok (fmt, scan), value :: args =>
              fmtAnyCalls fmt value ++
                if goesOn (fmtAny fmt value) then fmtFormatCallsLoop turns scan skipFmt args else []
            | .ok (_, scan), [] => fmtFormatCallsLoop turns scan skipFmt []
            | .error fault, _ => [.fault fault]
          else if scanCurr scan = 92 && !skipFmt then
            fmtFormatCallsLoop turns (scanNext scan).2 true args
          else fmtFormatCallsLoop turns (scanNext scan).2 false args

/-- The calls of `fmt_signed` and `fmt_unsigned` that `fmt_format` makes. -/
def fmtFormatCalls (format : List UInt8) (args : List Any) : List NumberCall :=
  match scanInit format with
  | .ok scan => fmtFormatCallsLoop (format.length + 1) scan false args
  | .error fault => [.fault fault]

/-- The calls of the loop of `fmt_vprintf`. -/
def fmtVprintfCallsLoop : ℕ → Scan → List VaArg → List NumberCall
  | 0, _, _ => []
  | turns + 1, scan, args =>
    if scanEnded scan then []
    else
      match scanSkipWord scan [37, 37] with
      | (true, scan) => fmtVprintfCallsLoop turns scan args
      | (false, scan) =>
        if scanCurr scan = 37 then
          match fmtParsePrintf scan, args with
          | .ok (type, fmt, scan), value :: args =>
            fmtPrintfCalls type fmt value ++
              if goesOn (fmtPrintfArg type fmt value) then fmtVprintfCallsLoop turns scan args else
                []
          | .ok _, [] => [.fault .panic]
          | .error fault, _ => [.fault fault]
        else fmtVprintfCallsLoop turns (scanNext scan).2 args

/-- The calls of `fmt_signed` and `fmt_unsigned` that `fmt_vprintf` makes. -/
def fmtVprintfCalls (format : List UInt8) (args : List VaArg) : List NumberCall :=
  match scanInit format with
  | .ok scan => fmtVprintfCallsLoop (format.length + 1) scan args
  | .error fault => [.fault fault]

/-- Every store of a run is where it is meant to be. -/
def Stays {Value : Type} (first : Except Fault Value) : Prop :=
  ∀ fault, first = .error fault → leaves fault = false

theorem stays_ok {Value : Type} (value : Value) : Stays (.ok value) := nofun

theorem stays_error_iff {Value : Type} (fault : Fault) :
    Stays (.error fault : Except Fault Value) ↔ leaves fault = false := by
  constructor
  · exact fun h ↦ h fault rfl
  · rintro h _ ⟨⟩
    exact h

theorem fits_nil : ∀ call ∈ ([] : List NumberCall), call.Fits := List.forall_mem_nil _

theorem stays_fault_iff {Value : Type} (fault : Fault) :
    Stays (.error fault : Except Fault Value) ↔ ∀ call ∈ [NumberCall.fault fault], call.Fits := by
  rw [stays_error_iff, List.forall_mem_singleton, NumberCall.Fits]

theorem stays_faultCalls_iff {Value : Type} (result : Except Fault Value) :
    Stays result ↔ ∀ call ∈ faultCalls result, call.Fits := by
  cases result with
  | ok value => exact iff_of_true (stays_ok value) fits_nil
  | error fault => exact stays_fault_iff fault

theorem length_fmtDigits (fmt : Fmt) (value : ℕ) (sign : List UInt8) :
    (fmtDigits fmt value sign).length = numberSize fmt value sign.length := by
  have hprefix : (if fmt.withPrefix then [fmtPrefixChar fmt, 48] else []).length =
      if fmt.withPrefix then 2 else 0 := by
    split <;> rfl
  rw [fmtDigits, numberSize]
  cases fmtPrecision fmt with
  | mk precision fill =>
    dsimp only
    simp only [List.length_reverse, List.length_append, List.length_replicate, List.length_map,
      hprefix]
    omega

theorem stays_fmtNumber_iff (fmt : Fmt) (value : ℕ) (sign : List UInt8) :
    Stays (fmtNumber fmt value sign) ↔ numberSize fmt value sign.length ≤ fmtBufSize := by
  rw [fmtNumber_eq, length_fmtDigits]
  split
  next h => exact iff_of_true (stays_ok _) h
  next h => exact iff_of_false (fun hstays ↦ Bool.noConfusion (hstays _ rfl)) h

theorem stays_fmtSigned_iff (fmt : Fmt) (value : ℤ) :
    Stays (fmtSigned fmt value) ↔ (NumberCall.signed fmt value).Fits := by
  have hsign : (if value < 0 then [(45 : UInt8)]
      else if fmt.prefixPlus then [43] else []).length =
        if value < 0 ∨ fmt.prefixPlus = true then 1 else 0 := by
    by_cases hneg : value < 0
    · rw [if_pos hneg, if_pos (Or.inl hneg)]
      rfl
    · by_cases hplus : fmt.prefixPlus = true
      · rw [if_neg hneg, if_pos hplus, if_pos (Or.inr hplus)]
        rfl
      · rw [if_neg hneg, if_neg hplus, if_neg (not_or.mpr ⟨hneg, hplus⟩)]
        rfl
  rw [fmtSigned, NumberCall.Fits]
  by_cases hmin : value = -2 ^ 63
  · rw [if_pos hmin]
    exact iff_of_false (fun hstays ↦ Bool.noConfusion (hstays _ rfl)) fun h ↦ h.1 hmin
  · rw [if_neg hmin, stays_fmtNumber_iff, hsign]
    exact (and_iff_right hmin).symm

theorem stays_fmtUnsigned_iff (fmt : Fmt) (value : ℕ) :
    Stays (fmtUnsigned fmt value) ↔ (NumberCall.unsigned fmt value).Fits := by
  have hsign : (if fmt.prefixPlus then [(43 : UInt8)] else []).length =
      if fmt.prefixPlus then 1 else 0 := by
    split <;> rfl
  rw [fmtUnsigned, stays_fmtNumber_iff, hsign, NumberCall.Fits]

theorem stays_fmtAny_iff (fmt : Fmt) (value : Any) :
    Stays (fmtAny fmt value) ↔ ∀ call ∈ fmtAnyCalls fmt value, call.Fits := by
  cases value with
  | bool value => exact iff_of_true (stays_ok _) fits_nil
  | str value => exact stays_faultCalls_iff (fmtString fmt value)
  | ptr value => exact (stays_fmtUnsigned_iff fmt value).trans List.forall_mem_singleton.symm
  | int value =>
    rw [fmtAny, fmtAnyCalls]
    by_cases hchar : fmt.type = .char
    · rw [if_pos hchar, if_pos hchar]
      exact iff_of_true (stays_ok _) fits_nil
    · rw [if_neg hchar, if_neg hchar, List.forall_mem_singleton, stays_fmtSigned_iff]
  | uint value =>
    rw [fmtAny, fmtAnyCalls]
    by_cases hchar : fmt.type = .char
    · rw [if_pos hchar, if_pos hchar]
      exact iff_of_true (stays_ok _) fits_nil
    · rw [if_neg hchar, if_neg hchar, List.forall_mem_singleton, stays_fmtUnsigned_iff]

theorem stays_fmtPrintfArg_iff (type : FmtPrintfType) (fmt : Fmt) (value : VaArg) :
    Stays (fmtPrintfArg type fmt value) ↔ ∀ call ∈ fmtPrintfCalls type fmt value, call.Fits := by
  cases value with
  | str value =>
    cases type with
    | string => exact stays_faultCalls_iff (fmtString fmt value)
    | int | long | longlong | uint | ulong | ulonglong | ptr => exact stays_fault_iff .panic
  | word bits =>
    cases type with
    | int | long | longlong =>
      exact (stays_fmtSigned_iff _ _).trans List.forall_mem_singleton.symm
    | uint | ulong | ulonglong | ptr =>
      exact (stays_fmtUnsigned_iff _ _).trans List.forall_mem_singleton.symm
    | string => exact stays_fault_iff .panic

/-- A loop that puts something in front of what the rest of it writes. -/
theorem stays_bind_pure_iff {Value Result : Type} {rest : Except Fault Value}
    (f : Value → Result) :
    Stays (rest >>= fun value ↦ pure (f value)) ↔ Stays rest := by
  cases rest with
  | error fault => exact (stays_error_iff fault).trans (stays_error_iff fault).symm
  | ok value => exact iff_of_true (stays_ok _) (stays_ok _)

/-- A value is formatted in front of what the rest of a loop writes. -/
theorem stays_formatted_iff {first rest : Except Fault (List UInt8)}
    {firstCalls restCalls : List NumberCall}
    (hfirst : Stays first ↔ ∀ call ∈ firstCalls, call.Fits)
    (hrest : Stays rest ↔ ∀ call ∈ restCalls, call.Fits) :
    Stays (do
      let written ← first
      let more ← rest
      return written ++ more) ↔
      ∀ call ∈ firstCalls ++ if goesOn first then restCalls else [], call.Fits := by
  rw [List.forall_mem_append, ← hfirst]
  cases first with
  | ok written =>
    rw [ok_bind, stays_bind_pure_iff, hrest]
    exact (and_iff_right (stays_ok written)).symm
  | error fault =>
    change Stays (Except.error fault) ↔ _
    constructor
    · intro hstays
      refine ⟨(stays_error_iff fault).mpr (hstays fault rfl), ?_⟩
      rw [if_neg]
      · exact fits_nil
      · rw [goesOn, hstays fault rfl]
        exact Bool.false_ne_true
    · exact fun h ↦ (stays_error_iff fault).mpr ((stays_error_iff fault).mp h.1)

theorem stays_fmtFormatLoop_iff (turns : ℕ) (scan : Scan) (skipFmt : Bool) (args : List Any) :
    Stays (fmtFormatLoop turns scan skipFmt args) ↔
      ∀ call ∈ fmtFormatCallsLoop turns scan skipFmt args, call.Fits := by
  induction turns generalizing scan skipFmt args with
  | zero => exact iff_of_true ((stays_error_iff .depth).mpr rfl) fits_nil
  | succ turns ih =>
    rw [fmtFormatLoop, fmtFormatCallsLoop]
    by_cases hended : scanEnded scan = true
    · rw [if_pos hended, if_pos hended]
      exact iff_of_true (stays_ok _) fits_nil
    rw [if_neg hended, if_neg hended]
    cases scanSkipWord scan [123, 123] with
    | mk found scan =>
    cases found with
    | true => exact (stays_bind_pure_iff _).trans (ih scan false args)
    | false =>
    dsimp only
    rw [if_neg Bool.false_ne_true]
    cases scanSkipWord scan [125, 125] with
    | mk found scan =>
    cases found with
    | true => exact (stays_bind_pure_iff _).trans (ih scan false args)
    | false =>
    dsimp only
    rw [if_neg Bool.false_ne_true]
    by_cases hbrace : (scanCurr scan = 123 && !skipFmt) = true
    · rw [if_pos hbrace, if_pos hbrace]
      cases hparse : fmtParse scan with
      | error fault => exact stays_fault_iff fault
      | ok result =>
        obtain ⟨fmt, scan⟩ := result
        rw [ok_bind]
        cases args with
        | nil => exact (stays_bind_pure_iff _).trans (ih scan skipFmt [])
        | cons value args =>
          exact stays_formatted_iff (stays_fmtAny_iff fmt value) (ih scan skipFmt args)
    · rw [if_neg hbrace, if_neg hbrace]
      by_cases hescape : (scanCurr scan = 92 && !skipFmt) = true
      · rw [if_pos hescape, if_pos hescape]
        exact ih _ true args
      · rw [if_neg hescape, if_neg hescape]
        exact (stays_bind_pure_iff _).trans (ih _ false args)

theorem stays_fmtVprintfLoop_iff (turns : ℕ) (scan : Scan) (args : List VaArg) :
    Stays (fmtVprintfLoop turns scan args) ↔
      ∀ call ∈ fmtVprintfCallsLoop turns scan args, call.Fits := by
  induction turns generalizing scan args with
  | zero => exact iff_of_true ((stays_error_iff .depth).mpr rfl) fits_nil
  | succ turns ih =>
    rw [fmtVprintfLoop, fmtVprintfCallsLoop]
    by_cases hended : scanEnded scan = true
    · rw [if_pos hended, if_pos hended]
      exact iff_of_true (stays_ok _) fits_nil
    rw [if_neg hended, if_neg hended]
    cases scanSkipWord scan [37, 37] with
    | mk found scan =>
    cases found with
    | true => exact (stays_bind_pure_iff _).trans (ih scan args)
    | false =>
    dsimp only
    rw [if_neg Bool.false_ne_true]
    by_cases hpercent : scanCurr scan = 37
    · rw [if_pos hpercent, if_pos hpercent]
      cases hparse : fmtParsePrintf scan with
      | error fault => exact stays_fault_iff fault
      | ok result =>
        obtain ⟨type, fmt, scan⟩ := result
        rw [ok_bind]
        cases args with
        | nil => exact stays_fault_iff .panic
        | cons value args =>
          exact stays_formatted_iff (stays_fmtPrintfArg_iff type fmt value) (ih scan args)
    · rw [if_neg hpercent, if_neg hpercent]
      exact (stays_bind_pure_iff _).trans (ih _ args)

end Brutal.Text
