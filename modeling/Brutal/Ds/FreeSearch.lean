import Brutal.Ds.Bits

/-!
# Searching for free bits

What `pmm_alloc` expects of `bits_find_free`: the search stays inside the bitmap, what it finds is
free, and a search over all positions finds something if there is something.  The positions at
which the search looks are collected beside its result.
-/

namespace Brutal.Ds

open Base

variable {bits : Bits} {size runSize start : UInt64} {upper : Bool} {first turns : ℕ}
  {range : USizeRange}

/-- `findFree` with the positions at which it looked. -/
def findFreeTraced (bits : Bits) (size : UInt64) (upper : Bool) :
    ℕ → UInt64 → UInt64 → UInt64 → USizeRange × List UInt64
  | 0, _, _, _ => (⟨0, 0⟩, [])
  | left + 1, i, rangeStart, rangeSize =>
    let free := bitsGet bits i == false
    let rangeStart :=
      if free then if rangeSize == 0 || upper then i else rangeStart else 0
    let rangeSize := if free then rangeSize + 1 else 0
    if size == rangeSize then (⟨rangeStart, rangeSize⟩, [i])
    else
      let (range, probes) := findFreeTraced bits size upper left (if upper then i - 1 else i + 1)
        rangeStart rangeSize
      (range, i :: probes)

/-- `bits_find_free` with the positions at which it looked. -/
def bitsFindFreeTraced (bits : Bits) (start size : UInt64) (upper : Bool) :
    Except Fault (USizeRange × List UInt64) :=
  if bitsLen bits > 1 then
    let start := min start (bitsLen bits)
    if bits.size == 0 then .ok (⟨0, 0⟩, [])
    else
      let left := if upper then start.toNat else (bitsLen bits).toNat - start.toNat
      .ok (findFreeTraced bits size upper left start 0 0)
  else .error .panic

theorem findFreeTraced_erase (bits : Bits) (size : UInt64) (upper : Bool) (left : ℕ)
    (i start runSize : UInt64) :
    (findFreeTraced bits size upper left i start runSize).1 =
      findFree bits size upper left i start runSize := by
  induction left generalizing i start runSize with
  | zero => rfl
  | succ left ih =>
    rw [findFreeTraced, findFree]
    dsimp only
    rw [apply_ite Prod.fst, ih]

theorem bitsFindFreeTraced_erase (bits : Bits) (start size : UInt64) (upper : Bool) :
    (bitsFindFreeTraced bits start size upper).map Prod.fst =
      bitsFindFree bits start size upper := by
  rw [bitsFindFreeTraced, bitsFindFree]
  split
  next =>
    dsimp only
    split
    next => rfl
    next => exact congrArg Except.ok (findFreeTraced_erase bits size upper _ _ 0 0)
  next => rfl

/-- The search goes from position to position and ends before `limit`. -/
theorem findFreeTraced_lt {limit left : ℕ} (hlimit : limit < 2 ^ 64) {i : UInt64}
    (hleft : if upper then left ≤ i.toNat ∧ i.toNat < limit else i.toNat + left ≤ limit)
    (start runSize : UInt64) :
    ∀ index ∈ (findFreeTraced bits size upper left i start runSize).2, index.toNat < limit := by
  induction left generalizing i start runSize with
  | zero => exact List.forall_mem_nil _
  | succ left ih =>
    have hposition : (if upper then left + 1 ≤ i.toNat else i.toNat + (left + 1) < 2 ^ 64) ∧
        i.toNat < limit := by
      cases upper <;> simp at hleft ⊢ <;> omega
    have hnext := nextPosition_toNat hposition.1
    have hleft' : if upper then left ≤ (nextPosition upper i).toNat ∧
        (nextPosition upper i).toNat < limit
        else (nextPosition upper i).toNat + left ≤ limit := by
      rw [hnext]
      cases upper <;> simp at hleft ⊢ <;> omega
    rw [findFreeTraced]
    dsimp only
    rw [apply_ite Prod.snd]
    by_cases hfull : (size == if (bitsGet bits i == false) = true then runSize + 1 else 0) = true
    · rw [if_pos hfull]
      exact List.forall_mem_singleton.2 hposition.2
    · rw [if_neg hfull]
      exact List.forall_mem_cons.2 ⟨hposition.2, ih hleft' _ _⟩

theorem mem_findFreeTraced (bits : Bits) (size : UInt64) (upper : Bool) (left : ℕ)
    (i start runSize : UInt64) :
    i ∈ (findFreeTraced bits size upper (left + 1) i start runSize).2 := by
  rw [findFreeTraced]
  dsimp only
  rw [apply_ite Prod.snd]
  by_cases hfull : (size == if (bitsGet bits i == false) = true then runSize + 1 else 0) = true
  · rw [if_pos hfull]
    exact List.mem_singleton_self i
  · rw [if_neg hfull]
    exact List.mem_cons_self

/-- The position that a search from `first` on looks at after `turns` others. -/
def visited (upper : Bool) (first turns : ℕ) : ℕ := if upper then first - turns else first + turns

/-- The run that the search has collected is the longest one in front of its position. -/
def Longest (bits : Bits) (upper : Bool) (first turns : ℕ) (runSize : UInt64) : Prop :=
  ∀ m ≤ turns, (∀ j, turns - m ≤ j → j < turns → bits.bit (visited upper first j) = false) →
    m ≤ runSize.toNat

/-- No `size` of the positions that were visited one after the other are all clear. -/
def NoRun (bits : Bits) (upper : Bool) (first turns size : ℕ) : Prop :=
  ∀ base, base + size ≤ turns →
    ∃ j, base ≤ j ∧ j < base + size ∧ bits.bit (visited upper first j) = true

theorem Longest.grow (h : Longest bits upper first turns runSize)
    (hsize : runSize.toNat < size.toNat) : Longest bits upper first (turns + 1) (runSize + 1) := by
  intro m hm hclear
  have hone : (1 : UInt64).toNat = 1 := rfl
  have hbound := size.toNat_lt
  rw [UInt64.toNat_add, hone, Nat.mod_eq_of_lt (by omega)]
  have hshorter := h (m - 1) (by omega) fun j hlow hhigh ↦ hclear j (by omega) (by omega)
  omega

theorem Longest.reset (hset : bits.bit (visited upper first turns) = true) :
    Longest bits upper first (turns + 1) 0 := by
  intro m hm hclear
  by_contra hpos
  have hbit := hclear turns (by
    have hzero : (0 : UInt64).toNat = 0 := rfl
    omega) (Nat.lt_succ_self turns)
  rw [hset] at hbit
  cases hbit

/-- A search goes on only while no run is long enough. -/
theorem NoRun.next (h : NoRun bits upper first turns size.toNat)
    (hlongest : Longest bits upper first (turns + 1) runSize) (hsize : runSize.toNat < size.toNat) :
    NoRun bits upper first (turns + 1) size.toNat := by
  intro base hbase
  by_cases hlast : base + size.toNat ≤ turns
  · exact h base hlast
  · by_contra hall
    push Not at hall
    have hrun := hlongest size.toNat (by omega) fun j hlow hhigh ↦
      Bool.eq_false_iff.2 (hall j (by omega) (by omega))
    omega

/-- A search that comes back with nothing has passed no run of the size. -/
theorem findFree_noRun {first turns left : ℕ} {i start runSize : UInt64}
    (hi : i.toNat = visited upper first turns)
    (hleft : if upper then left ≤ i.toNat else i.toNat + left < 2 ^ 64)
    (hlongest : Longest bits upper first turns runSize)
    (hnone : NoRun bits upper first turns size.toNat) (hsize : runSize.toNat < size.toNat)
    (hresult : (findFree bits size upper left i start runSize).size = 0) :
    NoRun bits upper first (turns + left) size.toNat := by
  induction left generalizing i start runSize turns with
  | zero => exact hnone
  | succ left ih =>
    have hone : (1 : UInt64).toNat = 1 := rfl
    have hbound := size.toNat_lt
    have hnext := nextPosition_toNat hleft
    have hi' : (nextPosition upper i).toNat = visited upper first (turns + 1) := by
      rw [hnext, hi]
      cases upper <;> simp [visited] <;> omega
    have hleft' : if upper then left ≤ (nextPosition upper i).toNat
        else (nextPosition upper i).toNat + left < 2 ^ 64 := by
      rw [hnext]
      cases upper <;> simp at hleft ⊢ <;> omega
    have hgrown : (runSize + 1).toNat = runSize.toNat + 1 := by
      rw [UInt64.toNat_add, hone, Nat.mod_eq_of_lt (by omega)]
    rw [show turns + (left + 1) = turns + 1 + left by omega]
    rw [findFree] at hresult
    by_cases hbit : bitsGet bits i = false
    · simp only [hbit, beq_self_eq_true, ↓reduceIte, beq_iff_eq] at hresult
      have hlongest' := hlongest.grow hsize
      by_cases hfull : size = runSize + 1
      · rw [if_pos hfull] at hresult
        dsimp only at hresult
        rw [hresult] at hgrown
        cases hgrown
      · rw [if_neg hfull] at hresult
        have hsize' : (runSize + 1).toNat < size.toNat := by
          have hne : size.toNat ≠ (runSize + 1).toNat := fun heq ↦ hfull (UInt64.toNat_inj.1 heq)
          omega
        exact ih hi' hleft' hlongest' (hnone.next hlongest' hsize') hsize' hresult
    · rw [Bool.not_eq_false] at hbit
      have hset : bits.bit (visited upper first turns) = true := by
        rw [← hi]
        exact hbit
      have hlongest' : Longest bits upper first (turns + 1) 0 := Longest.reset hset
      have hsize' : (0 : UInt64).toNat < size.toNat := Nat.zero_lt_of_lt hsize
      have hne : ¬ size = 0 := by
        rintro rfl
        exact absurd hsize' (lt_irrefl _)
      simp only [hbit, Bool.true_beq, Bool.false_eq_true, ↓reduceIte, beq_iff_eq] at hresult
      rw [if_neg hne] at hresult
      exact ih hi' hleft' hlongest' (hnone.next hlongest' hsize') hsize' hresult

/-- All bits of a run are clear. -/
def ClearFrom (bits : Bits) (base size : ℕ) : Prop :=
  ∀ j, base ≤ j → j < base + size → bits.bit j = false

/-- There is a byte where there is more than one bit. -/
theorem size_beq_zero (hlen : bitsLen bits > 1) : (bits.size == 0) = false := by
  rw [beq_eq_false_iff_ne]
  intro hzero
  rw [bitsLen, hzero] at hlen
  exact absurd hlen (by decide)

theorem bitsFindFree_eq (hlen : bitsLen bits > 1) :
    bitsFindFree bits start size upper =
      .ok (findFree bits size upper
        (if upper then (min start (bitsLen bits)).toNat
          else (bitsLen bits).toNat - (min start (bitsLen bits)).toNat)
        (min start (bitsLen bits)) 0 0) := by
  rw [bitsFindFree, if_pos hlen]
  simp only [size_beq_zero hlen, Bool.false_eq_true, ↓reduceIte]

theorem bitsFindFreeTraced_eq (hlen : bitsLen bits > 1) :
    bitsFindFreeTraced bits start size upper =
      .ok (findFreeTraced bits size upper
        (if upper then (min start (bitsLen bits)).toNat
          else (bitsLen bits).toNat - (min start (bitsLen bits)).toNat)
        (min start (bitsLen bits)) 0 0) := by
  rw [bitsFindFreeTraced, if_pos hlen]
  simp only [size_beq_zero hlen, Bool.false_eq_true, ↓reduceIte]

theorem bitsFindFree_noRun (hsize : size ≠ 0) (h : bitsFindFree bits start size upper = .ok range)
    (hempty : range.size = 0) :
    NoRun bits upper (min start (bitsLen bits)).toNat
      (if upper then (min start (bitsLen bits)).toNat
        else (bitsLen bits).toNat - (min start (bitsLen bits)).toNat) size.toNat := by
  have hlen : bitsLen bits > 1 := by
    by_contra hshort
    rw [bitsFindFree, if_neg hshort] at h
    cases h
  rw [bitsFindFree_eq hlen] at h
  cases h
  have hpos : 0 < size.toNat := Nat.pos_of_ne_zero fun hzero ↦ hsize (UInt64.toNat_inj.1 hzero)
  have hmin : (min start (bitsLen bits)).toNat ≤ (bitsLen bits).toNat := by
    rw [UInt64.toNat_min]
    omega
  have hlt := (bitsLen bits).toNat_lt
  have hinit : (min start (bitsLen bits)).toNat =
      visited upper (min start (bitsLen bits)).toNat 0 := by
    cases upper <;> rfl
  have hlongest : Longest bits upper (min start (bitsLen bits)).toNat 0 0 := fun m hm _ ↦ hm
  have hnone := findFree_noRun hinit (by cases upper <;> simp; omega) hlongest
    (fun base hbase ↦ absurd hbase (by omega)) hpos hempty
  rwa [Nat.zero_add] at hnone

/-- A search upwards from the first position misses no run. -/
theorem bitsFindFree_allUp (hsize : size ≠ 0) (h : bitsFindFree bits 0 size false = .ok range)
    (hempty : range.size = 0) :
    ∀ base, base + size.toNat ≤ (bitsLen bits).toNat → ¬ ClearFrom bits base size.toNat := by
  intro base hbase hclear
  have hnone := bitsFindFree_noRun hsize h hempty
  have hzero : (min 0 (bitsLen bits)).toNat = 0 := by simp [UInt64.toNat_min]
  rw [hzero] at hnone
  obtain ⟨j, hlow, hhigh, hset⟩ := hnone base hbase
  have hbit := hclear j hlow hhigh
  rw [visited, if_neg Bool.false_ne_true, Nat.zero_add, hbit] at hset
  cases hset

/-- A search downwards from the end misses no run, but for the first position. -/
theorem bitsFindFree_allDown (hsize : size ≠ 0) (h : bitsFindFree bits (-1) size true = .ok range)
    (hempty : range.size = 0) :
    ∀ base, 1 ≤ base → base + size.toNat ≤ (bitsLen bits).toNat →
      ¬ ClearFrom bits base size.toNat := by
  intro base hfirst hbase hclear
  have hnone := bitsFindFree_noRun hsize h hempty
  have hlast : (min (-1) (bitsLen bits)).toNat = (bitsLen bits).toNat := by
    have hlt := (bitsLen bits).toNat_lt
    have hminus : (-1 : UInt64).toNat = 2 ^ 64 - 1 := rfl
    rw [UInt64.toNat_min, hminus]
    omega
  rw [hlast] at hnone
  obtain ⟨j, hlow, hhigh, hset⟩ := hnone ((bitsLen bits).toNat - (base + size.toNat) + 1) (by
    rw [if_pos rfl]
    omega)
  have hbit := hclear ((bitsLen bits).toNat - j) (by omega) (by omega)
  rw [visited, if_pos rfl, hbit] at hset
  cases hset

/-- The search looks only at bits of the bitmap, what it finds are free bits in the number asked
for, and the searches over the whole bitmap find nothing only if there is nothing. -/
structure FindsFree (bits : Bits) (start size : UInt64) (upper : Bool) : Prop where
  inside : ∀ range probes, bitsFindFreeTraced bits start size upper = .ok (range, probes) →
    ∀ index ∈ probes, index < bitsLen bits
  returns : ∃ range, bitsFindFree bits start size upper = .ok range
  found : ∀ range, bitsFindFree bits start size upper = .ok range → range.size ≠ 0 →
    range.size = size ∧ range.finish ≤ (bitsLen bits).toNat ∧ AllClear bits range
  allUp : upper = false → start = 0 → ∀ range, bitsFindFree bits start size upper = .ok range →
    range.size = 0 → ∀ base, base + size.toNat ≤ (bitsLen bits).toNat →
      ¬ ClearFrom bits base size.toNat
  allDown : upper = true → start = -1 → ∀ range, bitsFindFree bits start size upper = .ok range →
    range.size = 0 → ∀ base, 1 ≤ base → base + size.toNat ≤ (bitsLen bits).toNat →
      ¬ ClearFrom bits base size.toNat

/-- A search downwards that starts past the last position looks behind the bitmap. -/
theorem bitsFindFreeTraced_behind (size : UInt64) (hlen : bitsLen bits > 1)
    (hstart : bitsLen bits ≤ start) :
    ∃ range probes, bitsFindFreeTraced bits start size true = .ok (range, probes) ∧
      bitsLen bits ∈ probes := by
  have hmin : min start (bitsLen bits) = bitsLen bits := by
    rw [← UInt64.toNat_inj, UInt64.toNat_min]
    exact min_eq_right (UInt64.le_iff_toNat_le.1 hstart)
  have hpos : (bitsLen bits).toNat ≠ 0 := by
    have hone := UInt64.lt_iff_toNat_lt.1 hlen
    exact Nat.ne_of_gt (Nat.zero_lt_of_lt hone)
  obtain ⟨left, hleft⟩ := Nat.exists_eq_succ_of_ne_zero hpos
  refine ⟨_, _, bitsFindFreeTraced_eq hlen, ?_⟩
  rw [hmin, if_pos rfl, hleft]
  exact mem_findFreeTraced bits size true left _ 0 0

/-- `bits_find_free` does what it has to exactly when it goes up or starts inside the bitmap. -/
theorem bitsFindFree_findsFree_iff (bits : Bits) (start size : UInt64) (upper : Bool)
    (hlen : bitsLen bits > 1) (hsize : size ≠ 0) :
    FindsFree bits start size upper ↔ (upper = true → start < bitsLen bits) := by
  constructor
  · intro h hup
    subst hup
    by_contra hstart
    obtain ⟨range, probes, htraced, hmem⟩ :=
      bitsFindFreeTraced_behind size hlen (UInt64.not_lt.1 hstart)
    exact absurd (h.inside range probes htraced _ hmem) (UInt64.lt_irrefl _)
  · intro hstart
    have hlt := (bitsLen bits).toNat_lt
    have hmin : (min start (bitsLen bits)).toNat ≤ (bitsLen bits).toNat := by
      rw [UInt64.toNat_min]
      omega
    have hleft : if upper then
        (if upper then (min start (bitsLen bits)).toNat
          else (bitsLen bits).toNat - (min start (bitsLen bits)).toNat) ≤
            (min start (bitsLen bits)).toNat ∧
          (min start (bitsLen bits)).toNat < (bitsLen bits).toNat
        else (min start (bitsLen bits)).toNat +
          (if upper then (min start (bitsLen bits)).toNat
            else (bitsLen bits).toNat - (min start (bitsLen bits)).toNat) ≤
              (bitsLen bits).toNat := by
      cases upper with
      | false =>
        simp only [Bool.false_eq_true, ↓reduceIte]
        omega
      | true =>
        have hinside := UInt64.lt_iff_toNat_lt.1 (hstart rfl)
        simp only [↓reduceIte, UInt64.toNat_min]
        omega
    constructor
    · intro range probes htraced index hindex
      rw [bitsFindFreeTraced_eq hlen] at htraced
      have hprobes : probes = _ := (congrArg Prod.snd (Except.ok.inj htraced)).symm
      rw [hprobes] at hindex
      exact UInt64.lt_iff_toNat_lt.2 (findFreeTraced_lt hlt hleft 0 0 index hindex)
    · exact ⟨_, bitsFindFree_eq hlen⟩
    · intro range hfind hne
      rw [bitsFindFree_eq hlen] at hfind
      cases hfind
      have hfound : Found bits size (bitsLen bits).toNat _ :=
        findFree_spec hlt hleft (RunAt.nil bits upper _ _)
      exact ⟨hfound.2.2.resolve_left hne, hfound.2.1, hfound.1⟩
    · rintro rfl rfl range hfind hempty
      exact bitsFindFree_allUp hsize hfind hempty
    · rintro rfl rfl range hfind hempty
      exact bitsFindFree_allDown hsize hfind hempty

/-- A bitmap of eight used bits in front of a free one. -/
def behindUsed : Bits where
  data := 0
  size := 1
  bit i := i ≠ 8

theorem bitsFindFree_findsFree_iff_up : FindsFree behindUsed 0 1 false :=
  (bitsFindFree_findsFree_iff behindUsed 0 1 false (by decide) (by decide)).2 nofun

/-- The bit behind the bitmap is found. -/
theorem bitsFindFree_findsFree_fails :
    ¬ ∀ (bits : Bits) (start size : UInt64) (upper : Bool), bitsLen bits > 1 → size ≠ 0 →
      FindsFree bits start size upper := by
  intro h
  have hfinds := h behindUsed (-1) 1 true (by decide) (by decide)
  have hfound : bitsFindFree behindUsed (-1) 1 true = .ok ⟨8, 1⟩ := by decide
  exact absurd (hfinds.found _ hfound (by decide)).2.1 (by decide)

end Brutal.Ds
