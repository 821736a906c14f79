import Brutal.Base.Range
import Brutal.Lib.Run
import Mathlib.Order.WithBot
import Mathlib.Data.List.Basic

/-!
# The boot memory map

`bal/boot/handover.c` keeps the memory map that the loader hands to the kernel as an array of typed
ranges.  `handoverMmapAppend` adds one entry: it merges it into an entry of its own type, or lets
the numerically larger type win over the common part and appends what is left of the other entry
again, or inserts it in front of the first entry that starts later.
-/

namespace Brutal.Boot

open Base

/-- `HandoverMmapType`, in the numerical order of the source. -/
inductive HandoverMmapType where
  | free
  | used
  | reclaimable
  | reserved
deriving DecidableEq, Repr

namespace HandoverMmapType

/-- The value of the enumerator. -/
def rank : HandoverMmapType → ℕ
  | free => 0
  | used => 1
  | reclaimable => 2
  | reserved => 3

theorem rank_injective : Function.Injective rank := by
  intro left right h
  cases left <;> cases right <;> first | rfl | cases h

instance : LinearOrder HandoverMmapType := LinearOrder.lift' rank rank_injective

theorem rank_lt (type : HandoverMmapType) : type.rank < 4 := by
  cases type <;> decide

end HandoverMmapType

structure HandoverMmapEntry where
  range : USizeRange
  type : HandoverMmapType
deriving DecidableEq, Repr

/-- The first `size` entries of the array; the array itself has room for
`handoverMmapMaxSize` of them. -/
structure HandoverMmap where
  entries : List HandoverMmapEntry
deriving DecidableEq, Repr

/-- `HANDOVER_MMAP_MAX_SIZE` -/
def handoverMmapMaxSize : ℕ := 64

/-- The place where the loop of `handover_mmap_append` stops. -/
inductive Scan where
  /-- An entry of the same type that touches the new one. -/
  | merge (before : List HandoverMmapEntry) (found : HandoverMmapEntry)
      (after : List HandoverMmapEntry)
  /-- An entry of another type that collides with the new one. -/
  | colide (before : List HandoverMmapEntry) (found : HandoverMmapEntry)
      (after : List HandoverMmapEntry)
  /-- The new entry goes between these two, the second being empty at the end of the loop. -/
  | place (before after : List HandoverMmapEntry)

/-- The loop over the entries, `seen` being those it has passed. -/
def scan (entry : HandoverMmapEntry) (seen : List HandoverMmapEntry) :
    List HandoverMmapEntry → Scan
  | [] => .place seen []
  | e :: rest =>
    if rangeTouch e.range entry.range && e.type == entry.type then .merge seen e rest
    else if rangeColide e.range entry.range then .colide seen e rest
    else if e.range.base > entry.range.base then .place seen (e :: rest)
    else scan entry (seen ++ [e]) rest

def alignEntry (entry : HandoverMmapEntry) : HandoverMmapEntry :=
  if entry.type = .free then { entry with range := rangeAlignSmaller entry.range memPageSize }
  else { entry with range := rangeAlignBigger entry.range memPageSize }

/-- `handover_mmap_append` with its recursion cut off at a depth. -/
def appendWithin : ℕ → HandoverMmap → HandoverMmapEntry → Except Fault HandoverMmap
  | 0, _, _ => .error .depth
  | depth + 1, self, entry =>
    if self.entries.length + 1 ≥ handoverMmapMaxSize then .error .panic
    else if rangeEmpty entry.range then .ok self
    else
      let entry := alignEntry entry
      match scan entry [] self.entries with
      | .merge before e after =>
        .ok ⟨before ++ { e with range := rangeMerge e.range entry.range } :: after⟩
      | .colide before e after =>
        -- `swap$`: the entry of the larger type stays whole and `e` is the one that is cut.
        let winner := if entry.type < e.type then e else entry
        let e := if entry.type < e.type then entry else e
        let lower := rangeHalfUnder e.range winner.range
        let «over» := rangeHalfOver e.range winner.range
        do
          let self ← appendWithin depth ⟨before ++ winner :: after⟩ ⟨lower, e.type⟩
          appendWithin depth self ⟨«over», e.type⟩
      | .place before after => .ok ⟨before ++ entry :: after⟩

/-- More than the number of times a page-aligned entry can be cut. -/
def appendDepth : ℕ := 2 ^ 54

/-- `handover_mmap_append` -/
def handoverMmapAppend (self : HandoverMmap) (entry : HandoverMmapEntry) :
    Except Fault HandoverMmap :=
  appendWithin appendDepth self entry

/-- The type an entry gives to an address, `⊥` outside the entry. -/
def claim (entry : HandoverMmapEntry) (addr : UInt64) : WithBot HandoverMmapType :=
  if addr ∈ entry.range then entry.type else ⊥

/-- The numerically largest type that any of the entries gives to an address. -/
def coverage : List HandoverMmapEntry → UInt64 → WithBot HandoverMmapType
  | [], _ => ⊥
  | entry :: rest, addr => max (claim entry addr) (coverage rest addr)

@[simp]
theorem coverage_nil (addr : UInt64) : coverage [] addr = ⊥ := rfl

@[simp]
theorem coverage_cons (entry : HandoverMmapEntry) (rest : List HandoverMmapEntry) (addr : UInt64) :
    coverage (entry :: rest) addr = max (claim entry addr) (coverage rest addr) := rfl

@[simp]
theorem coverage_append (left right : List HandoverMmapEntry) (addr : UInt64) :
    coverage (left ++ right) addr = max (coverage left addr) (coverage right addr) := by
  induction left with
  | nil => simp
  | cons entry rest ih => simp [ih, max_assoc]

/-- The map denoted does not depend on the order of the entries. -/
theorem coverage_perm {left right : List HandoverMmapEntry} (h : left.Perm right)
    (addr : UInt64) : coverage left addr = coverage right addr := by
  induction h with
  | nil => rfl
  | cons entry _ ih => simp [ih]
  | swap first second rest => simp [max_left_comm]
  | trans _ _ ihleft ihright => exact ihleft.trans ihright

theorem claim_le_coverage {entries : List HandoverMmapEntry} {entry : HandoverMmapEntry}
    (h : entry ∈ entries) (addr : UInt64) : claim entry addr ≤ coverage entries addr := by
  induction entries with
  | nil => cases h
  | cons first rest ih =>
    rcases List.mem_cons.1 h with rfl | hrest
    · exact le_max_left _ _
    · exact (ih hrest).trans (le_max_right _ _)

/-- Some entry attains the coverage of a covered address. -/
theorem exists_claim_eq_coverage {entries : List HandoverMmapEntry} {addr : UInt64}
    (h : coverage entries addr ≠ ⊥) :
    ∃ entry ∈ entries, addr ∈ entry.range ∧ (entry.type : WithBot _) = coverage entries addr := by
  induction entries with
  | nil => exact absurd rfl h
  | cons first rest ih =>
    rw [coverage_cons] at h ⊢
    rcases le_total (claim first addr) (coverage rest addr) with hle | hle
    · rw [max_eq_right hle] at h ⊢
      obtain ⟨entry, hmem, haddr, htype⟩ := ih h
      exact ⟨entry, List.mem_cons_of_mem _ hmem, haddr, htype⟩
    · rw [max_eq_left hle] at h ⊢
      by_cases haddr : addr ∈ first.range
      · exact ⟨first, List.mem_cons_self .., haddr, by simp [claim, haddr]⟩
      · exact absurd (by simp [claim, haddr]) h

/-- A non-empty, page-aligned entry whose end is representable. -/
structure Regular (entry : HandoverMmapEntry) : Prop where
  nonempty : entry.range.base.toNat < entry.range.finish
  bounded : entry.range.Bounded
  base_aligned : entry.range.base.toNat % 4096 = 0
  finish_aligned : entry.range.finish % 4096 = 0

namespace Regular

variable {entry : HandoverMmapEntry}

theorem of_aligned (hempty : rangeEmpty entry.range = false)
    (haligned : memIsRangePageAligned entry.range = true) (hbounded : entry.range.Bounded) :
    Regular entry := by
  obtain ⟨hbase, hsize⟩ := memIsRangePageAligned_iff.1 haligned
  have hpos : 0 < entry.range.size.toNat := by
    apply Nat.pos_of_ne_zero
    intro hzero
    have : entry.range.size = 0 := UInt64.toNat_inj.1 hzero
    simp [rangeEmpty, this] at hempty
  exact ⟨by unfold USizeRange.finish; omega, hbounded, hbase, by unfold USizeRange.finish; omega⟩

theorem rangeEmpty_eq_false (h : Regular entry) : rangeEmpty entry.range = false := by
  have hlt := h.nonempty
  simp only [rangeEmpty, beq_eq_false_iff_ne, ne_eq]
  intro hzero
  simp [USizeRange.finish, hzero] at hlt

theorem alignEntry_eq (h : Regular entry) : alignEntry entry = entry := by
  have hbase := h.base_aligned
  have hfinish := h.finish_aligned
  unfold USizeRange.finish at hfinish
  have haligned : memIsRangePageAligned entry.range = true :=
    memIsRangePageAligned_iff.2 ⟨hbase, by omega⟩
  have hrange := rangeAlign_page haligned
  unfold alignEntry
  split <;> simp only [hrange]

theorem claim_eq (h : Regular entry) (addr : UInt64) :
    claim entry addr =
      if entry.range.base.toNat ≤ addr.toNat ∧ addr.toNat < entry.range.finish then
        (entry.type : WithBot _)
      else ⊥ := by
  simp only [claim, h.bounded.mem_iff]

end Regular

/-- The entries are regular, and each one ends before the next one starts. -/
structure NormalForm (entries : List HandoverMmapEntry) : Prop where
  regular : ∀ entry ∈ entries, Regular entry
  ordered : entries.Pairwise fun first second ↦
    first.range.finish ≤ second.range.base.toNat

/-- The loop passes an entry that neither collides with the new one nor starts after it. -/
def Passed (entry e : HandoverMmapEntry) : Prop :=
  rangeColide e.range entry.range = false ∧ ¬ e.range.base > entry.range.base

theorem scan_cases (entry : HandoverMmapEntry) (seen rest : List HandoverMmapEntry)
    (hseen : ∀ e ∈ seen, Passed entry e) :
    (∃ before found after, scan entry seen rest = .merge before found after ∧
        seen ++ rest = before ++ found :: after ∧ (∀ e ∈ before, Passed entry e) ∧
        rangeTouch found.range entry.range = true ∧ found.type = entry.type) ∨
      (∃ before found after, scan entry seen rest = .colide before found after ∧
        seen ++ rest = before ++ found :: after ∧ (∀ e ∈ before, Passed entry e) ∧
        rangeColide found.range entry.range = true ∧ found.type ≠ entry.type) ∨
      (∃ before after, scan entry seen rest = .place before after ∧
        seen ++ rest = before ++ after ∧ (∀ e ∈ before, Passed entry e) ∧
        ∀ e ∈ after.head?, rangeColide e.range entry.range = false ∧
          e.range.base > entry.range.base) := by
  induction rest generalizing seen with
  | nil => exact Or.inr (Or.inr ⟨seen, [], rfl, rfl, hseen, by simp⟩)
  | cons e rest ih =>
    rw [scan]
    by_cases hmerge : (rangeTouch e.range entry.range && e.type == entry.type) = true
    · rw [if_pos hmerge]
      simp only [Bool.and_eq_true, beq_iff_eq] at hmerge
      exact Or.inl ⟨seen, e, rest, rfl, rfl, hseen, hmerge⟩
    rw [if_neg hmerge]
    by_cases hcolide : rangeColide e.range entry.range = true
    · rw [if_pos hcolide]
      refine Or.inr (Or.inl ⟨seen, e, rest, rfl, rfl, hseen, hcolide, ?_⟩)
      intro htype
      exact hmerge (by simp [rangeTouch, hcolide, htype])
    rw [if_neg hcolide]
    by_cases hbase : e.range.base > entry.range.base
    · rw [if_pos hbase]
      refine Or.inr (Or.inr ⟨seen, e :: rest, rfl, rfl, hseen, ?_⟩)
      rintro e' ⟨⟩
      exact ⟨Bool.eq_false_iff.2 hcolide, hbase⟩
    rw [if_neg hbase]
    have hpassed : ∀ e' ∈ seen ++ [e], Passed entry e' := by
      intro e' he'
      rcases List.mem_append.1 he' with h | h
      · exact hseen e' h
      · rw [List.mem_singleton.1 h]
        exact ⟨Bool.eq_false_iff.2 hcolide, hbase⟩
    simpa only [List.append_assoc, List.singleton_append] using ih (seen ++ [e]) hpassed

end Brutal.Boot
