import Brutal.Hw.FdtWalk
import Brutal.Lib.Memory

/-!
# Walks over ACPI tables

`libs/hw/acpi/rsdt.c` and `madt.c`.  The tables lie in a window over physical memory, and addresses
are counted from its start, so that `acpi_phys_to_virt` changes nothing.  The lengths of tables and
records are what the firmware put there.
-/

namespace Brutal.Hw

open Base Lib

/-- `Acpi`: the memory seen through the window, and the address of the RSDT. -/
structure Acpi where
  memory : ℕ → UInt8
  rsdt : ℕ

/-- A 32-bit field. -/
def load32 (memory : ℕ → UInt8) (addr : ℕ) : ℕ := ofLeBytes (readAt memory addr 4)

/-- The size of an `AcpiSdth`. -/
def sizeofSdth : ℕ := 36

/-- `sdth->len` -/
def sdthLen (acpi : Acpi) (sdth : ℕ) : ℕ := load32 acpi.memory (sdth + 4)

/-- `acpi_sdth_sig` -/
def acpiSdthSig (acpi : Acpi) (sdth : ℕ) : List UInt8 := readAt acpi.memory sdth 4

section

variable {σ : Type}

/-- The `child_count` of `acpi_rsdt_iterate`, in a `size_t`. -/
def childCount (acpi : Acpi) : ℕ :=
  (sdthLen acpi acpi.rsdt + (2 ^ 64 - sizeofSdth)) % 2 ^ 64 / 4

/-- The place of `rsdt->children[i]`. -/
def childAddr (acpi : Acpi) (i : ℕ) : ℕ := acpi.rsdt + sizeofSdth + 4 * i

/-- The table that `rsdt->children[i]` points to. -/
def child (acpi : Acpi) (i : ℕ) : ℕ := load32 acpi.memory (childAddr acpi i)

/-- One turn of the loop in `acpi_rsdt_iterate`. -/
def acpiRsdtTurn (acpi : Acpi) (fn : ℕ → σ → Iter × σ) :
    ℕ × σ → Except Fault ((ℕ × σ) ⊕ (Iter × σ))
  | (i, ctx) =>
    if i < childCount acpi then
      match fn (child acpi i) ctx with
      | (.iterStop, ctx) => .ok (.inr (.iterStop, ctx))
      | (.iterContinue, ctx) => .ok (.inl (i + 1, ctx))
    else .ok (.inr (.iterContinue, ctx))

/-- `acpi_rsdt_iterate`, with a turn for each child and one to leave. -/
def acpiRsdtIterate (acpi : Acpi) (fn : ℕ → σ → Iter × σ) (ctx : σ) : Except Fault (Iter × σ) :=
  loop (acpiRsdtTurn acpi fn) .depth (childCount acpi + 1) (0, ctx)

/-- The callback of `acpi_rsdt_lookup`. -/
def rsdtLookupImpl (acpi : Acpi) (sig : List UInt8) (fn : ℕ → σ → Iter × σ) (sdth : ℕ) (ctx : σ) :
    Iter × σ :=
  if sig ≠ acpiSdthSig acpi sdth then (.iterContinue, ctx) else fn sdth ctx

/-- `acpi_rsdt_lookup` -/
def acpiRsdtLookup (acpi : Acpi) (sig : List UInt8) (fn : ℕ → σ → Iter × σ) (ctx : σ) :
    Except Fault (Iter × σ) :=
  acpiRsdtIterate acpi (rsdtLookupImpl acpi sig fn) ctx

/-- `lookup_first_impl` -/
def lookupFirstImpl (acpi : Acpi) (sig : List UInt8) (sdth : ℕ) (found : Option ℕ) :
    Iter × Option ℕ :=
  if sig ≠ acpiSdthSig acpi sdth then (.iterContinue, found) else (.iterContinue, some sdth)

/-- `acpi_rsdt_lookup_first` -/
def acpiRsdtLookupFirst (acpi : Acpi) (sig : List UInt8) : Except Fault (Option ℕ) := do
  let (_, found) ← acpiRsdtIterate acpi (lookupFirstImpl acpi sig) none
  return found

/-- `ACPI_MADT_SIG`, which is "APIC". -/
def acpiMadtSig : List UInt8 := [65, 80, 73, 67]

/-- `record->type` -/
def recordType (acpi : Acpi) (record : ℕ) : ℕ := (acpi.memory record).toNat

/-- `record->len` -/
def recordLen (acpi : Acpi) (record : ℕ) : ℕ := (acpi.memory (record + 1)).toNat

/-- `madt->records` -/
def madtRecords (madt : ℕ) : ℕ := madt + sizeofSdth + 8

/-- The end of the table. -/
def madtEnd (acpi : Acpi) (madt : ℕ) : ℕ := madt + sdthLen acpi madt

/-- One turn of the loop in `acpi_madt_iterate`. -/
def acpiMadtTurn (acpi : Acpi) (madt : ℕ) (fn : ℕ → σ → Iter × σ) :
    ℕ × σ → Except Fault ((ℕ × σ) ⊕ (Iter × σ))
  | (record, ctx) =>
    if record < madtEnd acpi madt then
      match fn record ctx with
      | (.iterStop, ctx) => .ok (.inr (.iterStop, ctx))
      | (.iterContinue, ctx) => .ok (.inl (record + recordLen acpi record, ctx))
    else .ok (.inr (.iterContinue, ctx))

/-- `acpi_madt_iterate`, with a bound on the turns of its loop. -/
def acpiMadtIterate (turns : ℕ) (acpi : Acpi) (fn : ℕ → σ → Iter × σ) (ctx : σ) :
    Except Fault (Iter × σ) := do
  match ← acpiRsdtLookupFirst acpi acpiMadtSig with
  | none => return (.iterContinue, ctx)
  | some madt => loop (acpiMadtTurn acpi madt fn) .depth turns (madtRecords madt, ctx)

/-- The callback of `acpi_madt_lookup`. -/
def madtLookupImpl (acpi : Acpi) (type : ℕ) (fn : ℕ → σ → Iter × σ) (record : ℕ) (ctx : σ) :
    Iter × σ :=
  if recordType acpi record ≠ type then (.iterContinue, ctx) else fn record ctx

/-- `acpi_madt_lookup` -/
def acpiMadtLookup (turns : ℕ) (acpi : Acpi) (type : ℕ) (fn : ℕ → σ → Iter × σ) (ctx : σ) :
    Except Fault (Iter × σ) :=
  acpiMadtIterate turns acpi (madtLookupImpl acpi type fn) ctx

end

/-- The tables that the RSDT lists within its length. -/
def tables (acpi : Acpi) : List ℕ :=
  (List.range ((sdthLen acpi acpi.rsdt - sizeofSdth) / 4)).map (child acpi)

/-- The tables with a signature, in the order of the RSDT. -/
def tablesWith (acpi : Acpi) (sig : List UInt8) : List ℕ :=
  (tables acpi).filter fun sdth ↦ sig = acpiSdthSig acpi sdth

/-- The header of a record and the bytes that it announces lie in the table. -/
def RecordInside (acpi : Acpi) (madt record : ℕ) : Prop :=
  record + max 2 (recordLen acpi record) ≤ madtEnd acpi madt

/-- For every callback the walks end and hand out only entries that lie in their table, and a lookup
finds the first table with the signature. -/
structure WalksRightly (acpi : Acpi) : Prop where
  rsdt : ∀ {σ : Type} (fn : ℕ → σ → Iter × σ) (ctx : σ),
    (∃ result, acpiRsdtIterate acpi fn ctx = .ok result) ∧
      ∀ s, Reached (acpiRsdtTurn acpi fn) (0, ctx) s → s.1 < childCount acpi →
        childAddr acpi s.1 + 4 ≤ acpi.rsdt + sdthLen acpi acpi.rsdt
  madt : ∀ {σ : Type} (fn : ℕ → σ → Iter × σ) (ctx : σ),
    (∃ turns result, acpiMadtIterate turns acpi fn ctx = .ok result) ∧
      ∀ madt, acpiRsdtLookupFirst acpi acpiMadtSig = .ok (some madt) →
        ∀ s, Reached (acpiMadtTurn acpi madt fn) (madtRecords madt, ctx) s →
          s.1 < madtEnd acpi madt → RecordInside acpi madt s.1
  first : ∀ sig, acpiRsdtLookupFirst acpi sig = .ok (tablesWith acpi sig).head?

/-- From a record on, every record has a length and lies in the table, up to the end. -/
inductive RecordsFit (acpi : Acpi) (madt : ℕ) : ℕ → Prop where
  | done {record : ℕ} (h : madtEnd acpi madt ≤ record) : RecordsFit acpi madt record
  | record {record : ℕ} (hlen : 0 < recordLen acpi record)
    (hinside : RecordInside acpi madt record)
    (rest : RecordsFit acpi madt (record + recordLen acpi record)) : RecordsFit acpi madt record

variable {acpi : Acpi} {madt record : ℕ}

section

variable {σ : Type}

theorem load32_lt (memory : ℕ → UInt8) (addr : ℕ) : load32 memory addr < 2 ^ 32 := by
  have hlt := ofLeBytes_lt (readAt memory addr 4)
  rwa [length_readAt] at hlt

/-- With a length that covers its header, the RSDT has the children that lie within its length. -/
theorem childCount_eq (hlen : sizeofSdth ≤ sdthLen acpi acpi.rsdt) :
    childCount acpi = (sdthLen acpi acpi.rsdt - sizeofSdth) / 4 := by
  have hlt : sdthLen acpi acpi.rsdt < 2 ^ 32 := load32_lt _ _
  rw [childCount, sizeofSdth] at *
  omega

/-- With a shorter length, the number of children wraps around. -/
theorem childCount_pos (hlen : sdthLen acpi acpi.rsdt < sizeofSdth) : 0 < childCount acpi := by
  rw [childCount, sizeofSdth] at *
  omega

/-- The loop hands out the children one after the other. -/
theorem loop_acpiRsdtTurn (fn : ℕ → σ → Iter × σ) {count i : ℕ} (hi : i + count = childCount acpi)
    (ctx : σ) : loop (acpiRsdtTurn acpi fn) .depth (count + 1) (i, ctx) =
      .ok (iterEach fn ((List.range' i count).map (child acpi)) ctx) := by
  induction count generalizing i ctx with
  | zero =>
    have hdone : acpiRsdtTurn acpi fn (i, ctx) = .ok (.inr (.iterContinue, ctx)) :=
      if_neg (by omega)
    rw [loop_leave hdone]
    rfl
  | succ count ih =>
    have hturn : acpiRsdtTurn acpi fn (i, ctx) = match fn (child acpi i) ctx with
        | (.iterStop, ctx) => .ok (.inr (.iterStop, ctx))
        | (.iterContinue, ctx) => .ok (.inl (i + 1, ctx)) := if_pos (by omega)
    rw [List.range'_succ, List.map_cons, iterEach]
    rcases hfn : fn (child acpi i) ctx with ⟨_ | _, ctx'⟩
    · rw [hfn] at hturn
      rw [loop_leave hturn]
    · rw [hfn] at hturn
      rw [loop_turn hturn, ih (by omega)]

theorem acpiRsdtIterate_eq (fn : ℕ → σ → Iter × σ) (ctx : σ) : acpiRsdtIterate acpi fn ctx =
    .ok (iterEach fn ((List.range (childCount acpi)).map (child acpi)) ctx) := by
  rw [acpiRsdtIterate, loop_acpiRsdtTurn fn (Nat.zero_add _), List.range_eq_range']

/-- A lookup keeps the last table with the signature. -/
theorem iterEach_lookupFirstImpl (sig : List UInt8) (sdths : List ℕ) (found : Option ℕ) :
    iterEach (lookupFirstImpl acpi sig) sdths found = (.iterContinue,
      (sdths.filter fun sdth ↦ sig = acpiSdthSig acpi sdth).getLast?.or found) := by
  induction sdths generalizing found with
  | nil => rfl
  | cons sdth rest ih =>
    rw [iterEach, lookupFirstImpl]
    by_cases hsig : sig = acpiSdthSig acpi sdth
    · rw [if_neg (not_not.mpr hsig), List.filter_cons_of_pos (by simpa using hsig)]
      dsimp only
      rw [ih, List.getLast?_cons]
      cases (rest.filter fun sdth ↦ sig = acpiSdthSig acpi sdth).getLast? <;> rfl
    · rw [if_pos hsig, List.filter_cons_of_neg (by simpa using hsig)]
      exact ih found

/-- A callback that passes over some of the entries sees the others. -/
theorem iterEach_filter {α : Type} (p : α → Prop) [DecidablePred p] (fn : α → σ → Iter × σ)
    (items : List α) (ctx : σ) :
    iterEach (fun item ctx ↦ if p item then fn item ctx else (.iterContinue, ctx)) items ctx =
      iterEach fn (items.filter fun item ↦ p item) ctx := by
  induction items generalizing ctx with
  | nil => rfl
  | cons item rest ih =>
    rw [iterEach]
    by_cases hp : p item
    · rw [List.filter_cons_of_pos (by simpa using hp), iterEach, if_pos hp]
      rcases fn item ctx with ⟨_ | _, ctx'⟩
      · rfl
      · exact ih ctx'
    · rw [List.filter_cons_of_neg (by simpa using hp), if_neg hp]
      exact ih ctx

/-- `acpi_rsdt_lookup` hands out the tables with the signature in the order of the RSDT. -/
theorem acpiRsdtLookup_eq (hlen : sizeofSdth ≤ sdthLen acpi acpi.rsdt) (sig : List UInt8)
    (fn : ℕ → σ → Iter × σ) (ctx : σ) :
    acpiRsdtLookup acpi sig fn ctx = .ok (iterEach fn (tablesWith acpi sig) ctx) := by
  have himpl : rsdtLookupImpl acpi sig fn = fun sdth ctx ↦
      if sig = acpiSdthSig acpi sdth then fn sdth ctx else (.iterContinue, ctx) := by
    funext sdth ctx
    rw [rsdtLookupImpl, ite_not]
  rw [acpiRsdtLookup, acpiRsdtIterate_eq, himpl, iterEach_filter, childCount_eq hlen]
  rfl

theorem acpiRsdtLookupFirst_eq (hlen : sizeofSdth ≤ sdthLen acpi acpi.rsdt) (sig : List UInt8) :
    acpiRsdtLookupFirst acpi sig = .ok (tablesWith acpi sig).getLast? := by
  rw [acpiRsdtLookupFirst, acpiRsdtIterate_eq, ok_bind, iterEach_lookupFirstImpl, Option.or_none,
    childCount_eq hlen]
  rfl

/-- The loop over the children stays within the RSDT exactly when its length covers its header. -/
theorem rsdt_inside_iff :
    (∀ {σ : Type} (fn : ℕ → σ → Iter × σ) (ctx : σ) (s : ℕ × σ),
      Reached (acpiRsdtTurn acpi fn) (0, ctx) s → s.1 < childCount acpi →
        childAddr acpi s.1 + 4 ≤ acpi.rsdt + sdthLen acpi acpi.rsdt) ↔
      sizeofSdth ≤ sdthLen acpi acpi.rsdt := by
  constructor
  · intro h
    by_contra hnot
    have hfirst := h (fun _ (ctx : Unit) ↦ (.iterStop, ctx)) () _ (.refl _)
      (childCount_pos (Nat.lt_of_not_le hnot))
    rw [childAddr] at hfirst
    omega
  · intro hlen σ fn ctx s _ hs
    rw [childCount_eq hlen] at hs
    rw [childAddr]
    omega

/-- With records that fit, the loop ends. -/
theorem RecordsFit.exists_loop (h : RecordsFit acpi madt record) (fn : ℕ → σ → Iter × σ) (ctx : σ) :
    ∃ turns result, loop (acpiMadtTurn acpi madt fn) .depth turns (record, ctx) = .ok result := by
  induction h generalizing ctx with
  | done hdone =>
    have hleave : acpiMadtTurn acpi madt fn (_, ctx) = .ok (.inr (.iterContinue, ctx)) :=
      if_neg (Nat.not_lt.mpr hdone)
    exact ⟨1, _, loop_leave hleave 0⟩
  | @record record hlen hinside rest ih =>
    have hlt : record < madtEnd acpi madt := by
      rw [RecordInside] at hinside
      omega
    have hturn : acpiMadtTurn acpi madt fn (record, ctx) = match fn record ctx with
        | (.iterStop, ctx) => .ok (.inr (.iterStop, ctx))
        | (.iterContinue, ctx) => .ok (.inl (record + recordLen acpi record, ctx)) := if_pos hlt
    rcases hfn : fn record ctx with ⟨_ | _, ctx'⟩
    · rw [hfn] at hturn
      exact ⟨1, _, loop_leave hturn 0⟩
    · rw [hfn] at hturn
      obtain ⟨turns, result, hloop⟩ := ih ctx'
      exact ⟨turns + 1, result, by rw [loop_turn hturn, hloop]⟩

/-- What the loop goes on with after a record. -/
theorem acpiMadtTurn_eq_inl {fn : ℕ → σ → Iter × σ} {s t : ℕ × σ}
    (h : acpiMadtTurn acpi madt fn s = .ok (.inl t)) :
    s.1 < madtEnd acpi madt ∧ t.1 = s.1 + recordLen acpi s.1 := by
  obtain ⟨record, ctx⟩ := s
  rw [acpiMadtTurn] at h
  split at h
  next hlt =>
    split at h
    next => cases h
    next =>
      cases h
      exact ⟨hlt, rfl⟩
  next => cases h

/-- With records that fit, every record that is handed out lies in the table. -/
theorem RecordsFit.reached (h : RecordsFit acpi madt record) {fn : ℕ → σ → Iter × σ} {ctx : σ}
    {s : ℕ × σ} (hs : Reached (acpiMadtTurn acpi madt fn) (record, ctx) s) :
    RecordsFit acpi madt s.1 := by
  refine hs.invariant (fun s ↦ RecordsFit acpi madt s.1) (fun s t hfit hturn ↦ ?_) h
  obtain ⟨hlt, hnext⟩ := acpiMadtTurn_eq_inl hturn
  cases hfit with
  | done hdone => exact absurd hlt (Nat.not_lt.mpr hdone)
  | record _ _ rest => rwa [← hnext] at rest

/-- A loop that goes over everything, ends and stays within the table has records that fit. -/
theorem recordsFit_of_loop {turns : ℕ} {result : Iter × Unit}
    (hloop : loop (acpiMadtTurn acpi madt fun _ ctx ↦ (.iterContinue, ctx)) .depth turns
      (record, ()) = .ok result)
    (hinside : ∀ s : ℕ × Unit,
      Reached (acpiMadtTurn acpi madt fun _ ctx ↦ (.iterContinue, ctx)) (record, ()) s →
        s.1 < madtEnd acpi madt → RecordInside acpi madt s.1) : RecordsFit acpi madt record := by
  induction turns generalizing record with
  | zero => cases hloop
  | succ turns ih =>
    by_cases hlt : record < madtEnd acpi madt
    · have hturn : acpiMadtTurn acpi madt (fun _ (ctx : Unit) ↦ (.iterContinue, ctx)) (record, ()) =
          .ok (.inl (record + recordLen acpi record, ())) := if_pos hlt
      rw [loop_turn hturn] at hloop
      have hrest := ih hloop fun s hs ↦ hinside s (.turn hturn hs)
      rcases Nat.eq_zero_or_pos (recordLen acpi record) with hzero | hpos
      · rwa [hzero] at hrest
      · exact .record hpos (hinside _ (.refl _) hlt) hrest
    · exact .done (Nat.le_of_not_lt hlt)

/-- Where the walks are right, so are those over the records of one type. -/
theorem WalksRightly.exists_lookup (h : WalksRightly acpi) (type : ℕ) (fn : ℕ → σ → Iter × σ)
    (ctx : σ) : ∃ turns result, acpiMadtLookup turns acpi type fn ctx = .ok result :=
  (h.madt (madtLookupImpl acpi type fn) ctx).1

end

/-- The walks are right exactly when the length of the RSDT covers its header, the records of the
MADT fit into it, and no signature has a last table other than its first one. -/
theorem acpi_walksRightly_iff (acpi : Acpi) :
    WalksRightly acpi ↔ sizeofSdth ≤ sdthLen acpi acpi.rsdt ∧
      (∀ madt ∈ (tablesWith acpi acpiMadtSig).head?, RecordsFit acpi madt (madtRecords madt)) ∧
        ∀ sig, (tablesWith acpi sig).getLast? = (tablesWith acpi sig).head? := by
  constructor
  · intro h
    have hlen : sizeofSdth ≤ sdthLen acpi acpi.rsdt :=
      rsdt_inside_iff.mp fun fn ctx ↦ (h.rsdt fn ctx).2
    refine ⟨hlen, fun madt hmadt ↦ ?_, fun sig ↦ ?_⟩
    · have hlookup : acpiRsdtLookupFirst acpi acpiMadtSig = .ok (some madt) := by
        rw [h.first, hmadt]
      obtain ⟨⟨turns, result, hloop⟩, hinside⟩ :=
        h.madt (fun _ (ctx : Unit) ↦ (.iterContinue, ctx)) ()
      rw [acpiMadtIterate, hlookup, ok_bind] at hloop
      exact recordsFit_of_loop hloop (hinside madt hlookup)
    · have hlookup := h.first sig
      rw [acpiRsdtLookupFirst_eq hlen] at hlookup
      exact Except.ok.inj hlookup
  · rintro ⟨hlen, hrecords, hsame⟩
    have hfirst : ∀ sig, acpiRsdtLookupFirst acpi sig = .ok (tablesWith acpi sig).head? := by
      intro sig
      rw [acpiRsdtLookupFirst_eq hlen, hsame]
    refine ⟨fun fn ctx ↦ ⟨⟨_, acpiRsdtIterate_eq fn ctx⟩, rsdt_inside_iff.mpr hlen fn ctx⟩,
      fun fn ctx ↦ ⟨?_, fun madt hmadt s hs hlt ↦ ?_⟩, hfirst⟩
    · cases hhead : (tablesWith acpi acpiMadtSig).head? with
      | none =>
        refine ⟨0, (.iterContinue, ctx), ?_⟩
        rw [acpiMadtIterate, hfirst, hhead]
        rfl
      | some madt =>
        obtain ⟨turns, result, hloop⟩ := (hrecords madt hhead).exists_loop fn ctx
        refine ⟨turns, result, ?_⟩
        rw [acpiMadtIterate, hfirst, hhead, ok_bind]
        exact hloop
    · rw [hfirst] at hmadt
      have hfit := (hrecords madt (Except.ok.inj hmadt)).reached hs
      cases hfit with
      | done hdone => exact absurd hlt (Nat.not_lt.mpr hdone)
      | record _ hinside _ => exact hinside

/-- Two tables with one signature, of which the second one is found. -/
theorem acpi_walksRightly_fails : ¬ ∀ acpi, WalksRightly acpi := by
  intro h
  let acpi : Acpi := ⟨fun addr ↦ if addr = 4 then 44 else if addr = 36 then 100
    else if addr = 40 then 200 else 0, 0⟩
  have hfirst := (h acpi).first [0, 0, 0, 0]
  rw [acpiRsdtLookupFirst_eq (by decide)] at hfirst
  exact absurd hfirst (by decide)

end Brutal.Hw
