import Brutal.Boot.Handover

/-!
# Normal form of the boot memory map

Appending an entry to a map in normal form keeps it in normal form, and gives every address the
larger of its old type and the type of the entry, as long as the entry is `Separable` from the map:
the code cuts only the first entry it meets and then works on the pieces.
-/

namespace Brutal.Boot

open Base Lib

variable {entries before after : List HandoverMmapEntry} {entry found : HandoverMmapEntry}
variable {e : HandoverMmapEntry} {depth : ℕ} {result : HandoverMmap}

theorem Passed.finish_le (h : Passed entry e) (he : Regular e) (hentry : Regular entry) :
    e.range.finish ≤ entry.range.base.toNat := by
  obtain ⟨hcolide, hbase⟩ := h
  have hnot := (USizeRange.rangeColide_iff he.bounded hentry.bounded).not.1
    (Bool.eq_false_iff.1 hcolide)
  rw [gt_iff_lt, UInt64.lt_iff_toNat_lt] at hbase
  have hnonempty := hentry.nonempty
  omega

namespace NormalForm

theorem nil : NormalForm [] := ⟨by simp, List.Pairwise.nil⟩

/-- Replacing one entry, or inserting one, between two halves of a map. -/
theorem insert_between (hbefore : NormalForm before) (hafter : NormalForm after)
    (hentry : Regular entry)
    (hleft : ∀ e ∈ before, e.range.finish ≤ entry.range.base.toNat)
    (hright : ∀ e ∈ after, entry.range.finish ≤ e.range.base.toNat) :
    NormalForm (before ++ entry :: after) := by
  constructor
  · intro e he
    rcases List.mem_append.1 he with h | h
    · exact hbefore.regular e h
    · rcases List.mem_cons.1 h with rfl | h
      · exact hentry
      · exact hafter.regular e h
  · rw [List.pairwise_append]
    refine ⟨hbefore.ordered, List.pairwise_cons.2 ⟨hright, hafter.ordered⟩, ?_⟩
    intro e he f hf
    have hnonempty := hentry.nonempty
    have hle := hleft e he
    rcases List.mem_cons.1 hf with rfl | h
    · exact hle
    · have := hright f h
      omega

theorem of_append_left (h : NormalForm (before ++ after)) : NormalForm before :=
  ⟨fun e he ↦ h.regular e (List.mem_append_left _ he), (List.pairwise_append.1 h.ordered).1⟩

theorem of_append_right (h : NormalForm (before ++ after)) : NormalForm after :=
  ⟨fun e he ↦ h.regular e (List.mem_append_right _ he), (List.pairwise_append.1 h.ordered).2.1⟩

theorem of_cons (h : NormalForm (entry :: after)) : NormalForm after :=
  ⟨fun e he ↦ h.regular e (List.mem_cons_of_mem _ he), (List.pairwise_cons.1 h.ordered).2⟩

theorem head_le (h : NormalForm (entry :: after)) :
    ∀ e ∈ after, entry.range.finish ≤ e.range.base.toNat :=
  (List.pairwise_cons.1 h.ordered).1

theorem left_le (h : NormalForm (before ++ after)) :
    ∀ e ∈ before, ∀ f ∈ after, e.range.finish ≤ f.range.base.toNat :=
  (List.pairwise_append.1 h.ordered).2.2

/-- The first entry past a point bounds all later ones. -/
theorem head_bound (h : NormalForm after) {bound : ℕ}
    (hhead : ∀ e ∈ after.head?, bound ≤ e.range.base.toNat) :
    ∀ e ∈ after, bound ≤ e.range.base.toNat := by
  cases after with
  | nil => simp
  | cons first rest =>
    have hfirst : bound ≤ first.range.base.toNat := hhead first rfl
    have hnonempty := (h.regular first (List.mem_cons_self ..)).nonempty
    intro e he
    rcases List.mem_cons.1 he with rfl | hrest
    · exact hfirst
    · have := h.head_le e hrest
      omega

end NormalForm

/-- The entry has no address in common with any entry of the map. -/
def Apart (entries : List HandoverMmapEntry) (entry : HandoverMmapEntry) : Prop :=
  ∀ e ∈ entries, e.range.finish ≤ entry.range.base.toNat ∨
    entry.range.finish ≤ e.range.base.toNat

/-- Merging with an entry of the same type that touches, when nothing else is in the way. -/
theorem merge_spec (hmap : NormalForm (before ++ found :: after)) (hentry : Regular entry)
    (hbefore : ∀ e ∈ before, Passed entry e)
    (htouch : rangeTouch found.range entry.range = true) (htype : found.type = entry.type)
    (hafter : ∀ e ∈ after, entry.range.finish ≤ e.range.base.toNat) :
    NormalForm (before ++ { found with range := rangeMerge found.range entry.range } :: after) ∧
      ∀ addr, coverage
          (before ++ { found with range := rangeMerge found.range entry.range } :: after) addr =
        max (claim entry addr) (coverage (before ++ found :: after) addr) := by
  have hfound : Regular found := hmap.regular found (by simp)
  have hrest := hmap.of_append_right
  obtain ⟨hbase, hfinish, hbounded⟩ :=
    USizeRange.rangeMerge_toNat hfound.bounded hentry.bounded
  have hnonempty := hfound.nonempty
  have hnonempty' := hentry.nonempty
  have hregular : Regular { found with range := rangeMerge found.range entry.range } := by
    refine ⟨?_, hbounded, ?_, ?_⟩
    · simp only [hbase, hfinish]
      omega
    · have := hfound.base_aligned
      have := hentry.base_aligned
      simp only [hbase]
      omega
    · have := hfound.finish_aligned
      have := hentry.finish_aligned
      simp only [hfinish]
      omega
  constructor
  · apply NormalForm.insert_between hmap.of_append_left hrest.of_cons hregular
    · intro e he
      have hpassed := (hbefore e he).finish_le (hmap.regular e (by simp [he])) hentry
      have hle := hmap.left_le e he found (List.mem_cons_self ..)
      simp only [hbase]
      omega
    · intro e he
      have hle := hrest.head_le e he
      have hle' := hafter e he
      simp only [hfinish]
      omega
  · intro addr
    have hunion : claim { found with range := rangeMerge found.range entry.range } addr =
        max (claim entry addr) (claim found addr) := by
      simp only [rangeTouch, Bool.or_eq_true,
        USizeRange.rangeColide_iff hfound.bounded hentry.bounded,
        USizeRange.rangeContiguous_iff hfound.bounded hentry.bounded] at htouch
      rw [hregular.claim_eq, hentry.claim_eq, hfound.claim_eq, ← htype]
      simp only [hbase, hfinish]
      by_cases hin : entry.range.base.toNat ≤ addr.toNat ∧ addr.toNat < entry.range.finish
      · rw [if_pos hin, if_pos (by omega)]
        split <;> simp
      · rw [if_neg hin]
        by_cases hin' : found.range.base.toNat ≤ addr.toNat ∧ addr.toNat < found.range.finish
        · rw [if_pos hin', if_pos (by omega), max_eq_right bot_le]
        · rw [if_neg hin', if_neg (by omega), max_self]
    simp only [coverage_append, coverage_cons, hunion]
    ac_rfl

/-- Inserting an entry between the entries passed and the first one that starts later. -/
theorem place_spec (hmap : NormalForm (before ++ after)) (hentry : Regular entry)
    (hbefore : ∀ e ∈ before, Passed entry e)
    (hhead : ∀ e ∈ after.head?, rangeColide e.range entry.range = false ∧
      e.range.base > entry.range.base) :
    NormalForm (before ++ entry :: after) ∧
      ∀ addr, coverage (before ++ entry :: after) addr =
        max (claim entry addr) (coverage (before ++ after) addr) := by
  constructor
  · apply NormalForm.insert_between hmap.of_append_left hmap.of_append_right hentry
    · intro e he
      exact (hbefore e he).finish_le (hmap.regular e (by simp [he])) hentry
    · apply hmap.of_append_right.head_bound
      intro e he
      obtain ⟨hcolide, hbase⟩ := hhead e he
      have hmem : e ∈ before ++ after := List.mem_append_right _ (List.mem_of_mem_head? he)
      have hnot := (USizeRange.rangeColide_iff (hmap.regular e hmem).bounded hentry.bounded).not.1
        (Bool.eq_false_iff.1 hcolide)
      rw [gt_iff_lt, UInt64.lt_iff_toNat_lt] at hbase
      have hnonempty := (hmap.regular e hmem).nonempty
      omega
  · intro addr
    simp only [coverage_append, coverage_cons]
    ac_rfl

/-- What remains of a cut entry may be nothing, and then the map stays as it is. -/
theorem appendWithin_empty {self result : HandoverMmap} (hempty : rangeEmpty entry.range = true)
    (h : appendWithin depth self entry = .ok result) : result = self := by
  cases depth with
  | zero => cases h
  | succ depth =>
    rw [appendWithin, ite_error_eq_ok] at h
    rw [if_pos hempty] at h
    exact (Except.ok.inj h.2).symm

/-- The three ways in which a regular entry is appended. -/
theorem appendWithin_cases (hentry : Regular entry)
    (h : appendWithin depth ⟨entries⟩ entry = .ok result) :
    (∃ before found after, entries = before ++ found :: after ∧
        (∀ e ∈ before, Passed entry e) ∧ rangeTouch found.range entry.range = true ∧
        found.type = entry.type ∧
        result =
          ⟨before ++ { found with range := rangeMerge found.range entry.range } :: after⟩) ∨
      (∃ before found after smaller middle winner loser, entries = before ++ found :: after ∧
        (∀ e ∈ before, Passed entry e) ∧ rangeColide found.range entry.range = true ∧
        ((entry.type < found.type ∧ found = winner ∧ entry = loser) ∨
          (found.type < entry.type ∧ entry = winner ∧ found = loser)) ∧
        depth = smaller + 1 ∧
        appendWithin smaller ⟨before ++ winner :: after⟩
          ⟨rangeHalfUnder loser.range winner.range, loser.type⟩ = .ok middle ∧
        appendWithin smaller middle
          ⟨rangeHalfOver loser.range winner.range, loser.type⟩ = .ok result) ∨
      (∃ before after, entries = before ++ after ∧ (∀ e ∈ before, Passed entry e) ∧
        (∀ e ∈ after.head?, rangeColide e.range entry.range = false ∧
          e.range.base > entry.range.base) ∧
        result = ⟨before ++ entry :: after⟩) := by
  cases depth with
  | zero => cases h
  | succ depth =>
    rw [appendWithin, ite_error_eq_ok, hentry.rangeEmpty_eq_false, if_neg (by simp),
      hentry.alignEntry_eq] at h
    obtain ⟨_, h⟩ := h
    dsimp only at h
    rcases scan_cases entry [] entries (by simp) with
      ⟨before, found, after, hscan, hsplit, hpassed, htouch, htype⟩ |
      ⟨before, found, after, hscan, hsplit, hpassed, hcolide, htype⟩ |
      ⟨before, after, hscan, hsplit, hpassed, hhead⟩
    · rw [hscan] at h
      exact Or.inl ⟨before, found, after, hsplit, hpassed, htouch, htype, (Except.ok.inj h).symm⟩
    · rw [hscan] at h
      obtain ⟨middle, hlower, hover⟩ := bind_eq_ok.1 h
      refine Or.inr (Or.inl ?_)
      rcases lt_or_gt_of_ne htype with hlt | hlt
      · rw [if_neg hlt.not_gt, if_neg hlt.not_gt] at hlower hover
        exact ⟨before, found, after, depth, middle, entry, found, hsplit, hpassed, hcolide,
          Or.inr ⟨hlt, rfl, rfl⟩, rfl, hlower, hover⟩
      · rw [if_pos hlt, if_pos hlt] at hlower hover
        exact ⟨before, found, after, depth, middle, found, entry, hsplit, hpassed, hcolide,
          Or.inl ⟨hlt, rfl, rfl⟩, rfl, hlower, hover⟩
    · rw [hscan] at h
      exact Or.inr (Or.inr ⟨before, after, hsplit, hpassed, hhead, (Except.ok.inj h).symm⟩)

/-- What may stand in the map after an entry apart from it was appended. -/
def Joined (entries : List HandoverMmapEntry) (entry f : HandoverMmapEntry) : Prop :=
  f ∈ entries ∨ f = entry ∨
    ∃ e ∈ entries, e.type = entry.type ∧
      (e.range.finish = entry.range.base.toNat ∨ entry.range.finish = e.range.base.toNat) ∧
      f = { e with range := rangeMerge e.range entry.range }

/-- An entry apart from the map is inserted, or merged with a neighbour of its own type. -/
theorem append_apart (hmap : NormalForm entries) (hentry : Regular entry)
    (hapart : Apart entries entry) (h : appendWithin depth ⟨entries⟩ entry = .ok result) :
    NormalForm result.entries ∧
      (∀ addr, coverage result.entries addr = max (claim entry addr) (coverage entries addr)) ∧
      ∀ f ∈ result.entries, Joined entries entry f := by
  have hnonempty := hentry.nonempty
  rcases appendWithin_cases hentry h with
    ⟨before, found, after, rfl, hpassed, htouch, htype, rfl⟩ |
    ⟨before, found, after, _, _, _, _, rfl, _, hcolide, _⟩ |
    ⟨before, after, rfl, hpassed, hhead, rfl⟩
  · have hfound : Regular found := hmap.regular found (by simp)
    have hfoundNonempty := hfound.nonempty
    have hcontiguous : found.range.finish = entry.range.base.toNat ∨
        entry.range.finish = found.range.base.toNat := by
      have := hapart found (by simp)
      simp only [rangeTouch, Bool.or_eq_true,
        USizeRange.rangeColide_iff hfound.bounded hentry.bounded,
        USizeRange.rangeContiguous_iff hfound.bounded hentry.bounded] at htouch
      omega
    have hafter : ∀ e ∈ after, entry.range.finish ≤ e.range.base.toNat := by
      intro e he
      have := hmap.of_append_right.head_le e he
      have := hapart e (by simp [he])
      have := (hmap.regular e (by simp [he])).nonempty
      omega
    obtain ⟨hnormal, hcoverage⟩ := merge_spec hmap hentry hpassed htouch htype hafter
    refine ⟨hnormal, hcoverage, ?_⟩
    intro f hf
    rcases List.mem_append.1 hf with hf | hf
    · exact Or.inl (by simp [hf])
    · rcases List.mem_cons.1 hf with rfl | hf
      · exact Or.inr (Or.inr ⟨found, by simp, htype, hcontiguous, rfl⟩)
      · exact Or.inl (by simp [hf])
  · have hfound : Regular found := hmap.regular found (by simp)
    have := hfound.nonempty
    have := hapart found (by simp)
    rw [USizeRange.rangeColide_iff hfound.bounded hentry.bounded] at hcolide
    omega
  · obtain ⟨hnormal, hcoverage⟩ := place_spec hmap hentry hpassed hhead
    refine ⟨hnormal, hcoverage, ?_⟩
    intro f hf
    rcases List.mem_append.1 hf with hf | hf
    · exact Or.inl (by simp [hf])
    · rcases List.mem_cons.1 hf with rfl | hf
      · exact Or.inr (Or.inl rfl)
      · exact Or.inl (by simp [hf])

theorem claim_of_rangeEmpty (h : rangeEmpty entry.range = true) (addr : UInt64) :
    claim entry addr = ⊥ := by
  have hsize : entry.range.size = 0 := by simpa [rangeEmpty] using h
  rw [claim, if_neg]
  simp [mem_def, hsize]

/-- A piece that is empty or apart from the map: `append_apart` and `appendWithin_empty` in one. -/
theorem append_piece (hmap : NormalForm entries)
    (hpiece : rangeEmpty entry.range = true ∨ (Regular entry ∧ Apart entries entry))
    (h : appendWithin depth ⟨entries⟩ entry = .ok result) :
    NormalForm result.entries ∧
      (∀ addr, coverage result.entries addr = max (claim entry addr) (coverage entries addr)) ∧
      ∀ f ∈ result.entries, f ∈ entries ∨ (Regular entry ∧ Joined entries entry f) := by
  rcases hpiece with hempty | ⟨hregular, hapart⟩
  · obtain rfl := appendWithin_empty hempty h
    refine ⟨hmap, fun addr ↦ ?_, fun f hf ↦ Or.inl hf⟩
    rw [claim_of_rangeEmpty hempty, max_eq_right bot_le]
  · obtain ⟨hnormal, hcoverage, hjoined⟩ := append_apart hmap hregular hapart h
    exact ⟨hnormal, hcoverage, fun f hf ↦ Or.inr ⟨hregular, hjoined f hf⟩⟩

/-! ## Cutting one entry by another -/

/-- Two entries of a normal form that have an address in common are the same entry. -/
theorem NormalForm.eq_of_overlap {e f : HandoverMmapEntry} (hmap : NormalForm entries)
    (he : e ∈ entries) (hf : f ∈ entries) (hleft : e.range.base.toNat < f.range.finish)
    (hright : f.range.base.toNat < e.range.finish) : e = f := by
  have hapart := List.Pairwise.forall_of_forall_of_flip
    (R := fun e f : HandoverMmapEntry ↦ e = f ∨ e.range.finish ≤ f.range.base.toNat ∨
      f.range.finish ≤ e.range.base.toNat)
    (fun e _ ↦ Or.inl rfl) (hmap.ordered.imp fun h ↦ Or.inr (Or.inl h))
    (hmap.ordered.imp fun h ↦ Or.inr (Or.inr h)) he hf
  rcases hapart with heq | h | h
  · exact heq
  · omega
  · omega

section Cut

variable {winner loser : HandoverMmapEntry}

/-- The lower piece is empty, or reaches from the start of the loser to that of the winner. -/
theorem lower_piece (hwinner : Regular winner) (hloser : Regular loser) :
    (rangeEmpty (rangeHalfUnder loser.range winner.range) = true ∧
        ¬ (loser.range.base.toNat < winner.range.base.toNat ∧
          winner.range.base.toNat < loser.range.finish)) ∨
      (Regular ⟨rangeHalfUnder loser.range winner.range, loser.type⟩ ∧
        (rangeHalfUnder loser.range winner.range).base.toNat = loser.range.base.toNat ∧
        (rangeHalfUnder loser.range winner.range).finish = winner.range.base.toNat) := by
  rcases USizeRange.rangeHalfUnder_cases hloser.bounded hwinner.bounded with
    ⟨hlt, _, hbase, hfinish⟩ | ⟨hnot, hempty⟩
  · refine Or.inr ⟨⟨?_, ?_, ?_, ?_⟩, hbase, hfinish⟩
    · simp only [hbase, hfinish]
      exact hlt
    · have hbound := winner.range.base.toNat_lt
      unfold USizeRange.finish at hfinish
      simp only [USizeRange.Bounded]
      omega
    · simp only [hbase]
      exact hloser.base_aligned
    · simp only [hfinish]
      exact hwinner.base_aligned
  · exact Or.inl ⟨by rw [hempty]; rfl, hnot⟩

/-- The upper piece is empty, or reaches from the end of the winner to that of the loser. -/
theorem upper_piece (hwinner : Regular winner) (hloser : Regular loser) :
    (rangeEmpty (rangeHalfOver loser.range winner.range) = true ∧
        ¬ (loser.range.base.toNat < winner.range.finish ∧
          winner.range.base.toNat < loser.range.finish ∧
          winner.range.finish < loser.range.finish)) ∨
      (Regular ⟨rangeHalfOver loser.range winner.range, loser.type⟩ ∧
        (rangeHalfOver loser.range winner.range).base.toNat = winner.range.finish ∧
        (rangeHalfOver loser.range winner.range).finish = loser.range.finish) := by
  rcases USizeRange.rangeHalfOver_cases hloser.bounded hwinner.bounded with
    ⟨_, _, hlt, hbase, hfinish⟩ | ⟨hnot, hempty⟩
  · refine Or.inr ⟨⟨?_, ?_, ?_, ?_⟩, hbase, hfinish⟩
    · simp only [hbase, hfinish]
      exact hlt
    · have hbound := hloser.bounded
      unfold USizeRange.Bounded at hbound
      unfold USizeRange.finish at hfinish
      simp only [USizeRange.Bounded]
      omega
    · simp only [hbase]
      exact hwinner.finish_aligned
    · simp only [hfinish]
      exact hloser.finish_aligned
  · exact Or.inl ⟨by rw [hempty]; rfl, hnot⟩

/-- A piece of an entry claims no more than the entry does. -/
theorem claim_piece_le {piece : HandoverMmapEntry} (hpiece : Regular piece)
    (hloser : Regular loser) (htype : piece.type = loser.type)
    (hbase : loser.range.base.toNat ≤ piece.range.base.toNat)
    (hfinish : piece.range.finish ≤ loser.range.finish) (addr : UInt64) :
    claim piece addr ≤ claim loser addr := by
  rw [hpiece.claim_eq, hloser.claim_eq, htype]
  by_cases hin : piece.range.base.toNat ≤ addr.toNat ∧ addr.toNat < piece.range.finish
  · rw [if_pos hin, if_pos (by omega)]
  · rw [if_neg hin]
    exact bot_le

/-- The two pieces and the winner claim together what the loser and the winner claim. -/
theorem cut_claim (hwinner : Regular winner) (hloser : Regular loser)
    (hcolide : loser.range.base.toNat < winner.range.finish ∧
      winner.range.base.toNat < loser.range.finish)
    (htype : loser.type < winner.type) (addr : UInt64) :
    max (claim ⟨rangeHalfOver loser.range winner.range, loser.type⟩ addr)
        (max (claim ⟨rangeHalfUnder loser.range winner.range, loser.type⟩ addr)
          (claim winner addr)) =
      max (claim loser addr) (claim winner addr) := by
  apply le_antisymm
  · refine max_le ?_ (max_le ?_ (le_max_right _ _))
    · rcases upper_piece hwinner hloser with ⟨hempty, _⟩ | ⟨hregular, hbase, hfinish⟩
      · rw [claim_of_rangeEmpty hempty]
        exact bot_le
      · exact (claim_piece_le hregular hloser rfl (by simp only [hbase]; omega)
          (by simp only [hfinish]; exact le_rfl) addr).trans (le_max_left _ _)
    · rcases lower_piece hwinner hloser with ⟨hempty, _⟩ | ⟨hregular, hbase, hfinish⟩
      · rw [claim_of_rangeEmpty hempty]
        exact bot_le
      · exact (claim_piece_le hregular hloser rfl (by simp only [hbase]; exact le_rfl)
          (by simp only [hfinish]; omega) addr).trans (le_max_left _ _)
  · refine max_le ?_ ((le_max_right _ _).trans (le_max_right _ _))
    by_cases hin : loser.range.base.toNat ≤ addr.toNat ∧ addr.toNat < loser.range.finish
    swap
    · rw [hloser.claim_eq, if_neg hin]
      exact bot_le
    rw [hloser.claim_eq, if_pos hin]
    by_cases hbelow : addr.toNat < winner.range.base.toNat
    · rcases lower_piece hwinner hloser with ⟨_, hnot⟩ | ⟨hregular, hbase, hfinish⟩
      · omega
      · refine le_trans ?_ ((le_max_left _ _).trans (le_max_right _ _))
        rw [hregular.claim_eq, if_pos]
        simp only [hbase, hfinish]
        omega
    by_cases habove : addr.toNat < winner.range.finish
    · refine le_trans ?_ ((le_max_right _ _).trans (le_max_right _ _))
      rw [hwinner.claim_eq, if_pos (by omega)]
      exact WithBot.coe_le_coe.2 htype.le
    · rcases upper_piece hwinner hloser with ⟨_, hnot⟩ | ⟨hregular, hbase, hfinish⟩
      · omega
      · refine le_trans ?_ (le_max_left _ _)
        rw [hregular.claim_eq, if_pos]
        simp only [hbase, hfinish]
        omega

/-- After the lower piece was appended next to the winner, everything that reaches past the start
of the winner was there before. -/
theorem joined_lower {f : HandoverMmapEntry} (hmap : NormalForm entries)
    (hmem : winner ∈ entries) (hloser : Regular loser) (htype : loser.type ≠ winner.type)
    (hf : f ∈ entries ∨
      (Regular ⟨rangeHalfUnder loser.range winner.range, loser.type⟩ ∧
        Joined entries ⟨rangeHalfUnder loser.range winner.range, loser.type⟩ f)) :
    f ∈ entries ∨ f.range.finish ≤ winner.range.base.toNat := by
  have hwinner := hmap.regular winner hmem
  rcases hf with hf | ⟨hregular, hjoined⟩
  · exact Or.inl hf
  have hfinish : (rangeHalfUnder loser.range winner.range).finish =
      winner.range.base.toNat := by
    rcases lower_piece hwinner hloser with ⟨hempty, _⟩ | ⟨_, _, hfinish⟩
    · rw [hregular.rangeEmpty_eq_false] at hempty
      cases hempty
    · exact hfinish
  rcases hjoined with hf | rfl | ⟨e, he, hetype, hnext, rfl⟩
  · exact Or.inl hf
  · exact Or.inr hfinish.le
  · have hebounded := (hmap.regular e he).bounded
    have henonempty := (hmap.regular e he).nonempty
    have hnonempty := hregular.nonempty
    have hwnonempty := hwinner.nonempty
    have hmerge := (USizeRange.rangeMerge_toNat hebounded hregular.bounded).2.1
    rcases hnext with hnext | hnext
    · refine Or.inr ?_
      simp only at hmerge hnext hnonempty ⊢
      omega
    · -- The neighbour above the piece is the winner, which has another type.
      simp only at hnext hetype
      have heq := hmap.eq_of_overlap he hmem (by omega) (by omega)
      rw [heq] at hetype
      exact absurd hetype.symm htype

/-- The lower piece finds nothing in its way next to the winner. -/
theorem lower_apart (hmap : NormalForm (before ++ winner :: after)) (hloser : Regular loser)
    (hleft : ∀ e ∈ before, e.range.finish ≤ loser.range.base.toNat) :
    rangeEmpty (rangeHalfUnder loser.range winner.range) = true ∨
      (Regular ⟨rangeHalfUnder loser.range winner.range, loser.type⟩ ∧
        Apart (before ++ winner :: after)
          ⟨rangeHalfUnder loser.range winner.range, loser.type⟩) := by
  have hwinner := hmap.regular winner (by simp)
  refine (lower_piece hwinner hloser).imp And.left fun ⟨hregular, hbase, hfinish⟩ ↦
    ⟨hregular, fun e he ↦ ?_⟩
  simp only [hbase, hfinish]
  rcases List.mem_append.1 he with he | he
  · exact Or.inl (hleft e he)
  · rcases List.mem_cons.1 he with rfl | he
    · exact Or.inr le_rfl
    · have := hmap.of_append_right.head_le e he
      have := hwinner.nonempty
      exact Or.inr (by omega)

/-- Both pieces appended next to the winner cover what the loser covered. -/
theorem cut_coverage {middle result : List HandoverMmapEntry} (hwinner : Regular winner)
    (hloser : Regular loser)
    (hcolide : loser.range.base.toNat < winner.range.finish ∧
      winner.range.base.toNat < loser.range.finish)
    (htype : loser.type < winner.type) {addr : UInt64}
    (hlower : coverage middle addr =
      max (claim ⟨rangeHalfUnder loser.range winner.range, loser.type⟩ addr)
        (coverage (before ++ winner :: after) addr))
    (hover : coverage result addr =
      max (claim ⟨rangeHalfOver loser.range winner.range, loser.type⟩ addr)
        (coverage middle addr)) :
    coverage result addr = max (claim loser addr) (coverage (before ++ winner :: after) addr) := by
  calc
    coverage result addr =
        max (max (claim ⟨rangeHalfOver loser.range winner.range, loser.type⟩ addr)
          (max (claim ⟨rangeHalfUnder loser.range winner.range, loser.type⟩ addr)
            (claim winner addr)))
          (max (coverage before addr) (coverage after addr)) := by
      rw [hover, hlower]
      simp only [coverage_append, coverage_cons]
      ac_rfl
    _ = max (claim loser addr) (coverage (before ++ winner :: after) addr) := by
      rw [cut_claim hwinner hloser hcolide htype]
      simp only [coverage_append, coverage_cons]
      ac_rfl

end Cut

/-- An entry that collides with the map may not continue an entry of its own type from below, and
has to be of a smaller type than every entry it collides with but the last. -/
def Separable (entries : List HandoverMmapEntry) (entry : HandoverMmapEntry) : Prop :=
  ∀ e ∈ entries, rangeColide e.range entry.range = true →
    (∀ f ∈ entries, f.type = entry.type → rangeEnd f.range ≠ entry.range.base) ∧
      ∀ f ∈ entries, rangeColide f.range entry.range = true →
        e.range.base < f.range.base → entry.type < e.type

instance (entries : List HandoverMmapEntry) (entry : HandoverMmapEntry) :
    Decidable (Separable entries entry) :=
  inferInstanceAs (Decidable (∀ e ∈ entries, _ → _))

/-- Entries of a normal form after `found` that the new entry reaches collide with it. -/
theorem colide_after (hmap : NormalForm (before ++ found :: after)) (hentry : Regular entry)
    (he : e ∈ after) (hstart : entry.range.base.toNat ≤ found.range.finish)
    (hreach : e.range.base.toNat < entry.range.finish) :
    rangeColide e.range entry.range = true ∧ found.range.base < e.range.base := by
  have hle := hmap.of_append_right.head_le e he
  have heregular := hmap.regular e (by simp [he])
  have hfound := (hmap.regular found (by simp)).nonempty
  have henonempty := heregular.nonempty
  constructor
  · rw [USizeRange.rangeColide_iff heregular.bounded hentry.bounded]
    omega
  · rw [UInt64.lt_iff_toNat_lt]
    omega

/-- Nothing after the entry that absorbs a separable entry is in its way. -/
theorem Separable.after_merge (hmap : NormalForm (before ++ found :: after))
    (hentry : Regular entry) (hsep : Separable (before ++ found :: after) entry)
    (htouch : rangeTouch found.range entry.range = true) (htype : found.type = entry.type) :
    ∀ e ∈ after, entry.range.finish ≤ e.range.base.toNat := by
  intro e he
  have hfound := hmap.regular found (by simp)
  by_contra hreach
  rw [not_le] at hreach
  have hle := hmap.of_append_right.head_le e he
  have hnonempty := hfound.nonempty
  simp only [rangeTouch, Bool.or_eq_true] at htouch
  have hstart : entry.range.base.toNat ≤ found.range.finish := by
    rw [USizeRange.rangeColide_iff hfound.bounded hentry.bounded,
      USizeRange.rangeContiguous_iff hfound.bounded hentry.bounded] at htouch
    omega
  obtain ⟨hcolide, hbase⟩ := colide_after hmap hentry he hstart hreach
  rcases htouch with htouch | htouch
  · have hlt := (hsep found (by simp) htouch).2 e (by simp [he]) hcolide hbase
    exact absurd hlt (by rw [htype]; exact lt_irrefl _)
  · have hne := (hsep e (by simp [he]) hcolide).1 found (by simp) htype
    rw [USizeRange.rangeContiguous_iff hfound.bounded hentry.bounded] at htouch
    apply hne
    rw [← UInt64.toNat_inj, hfound.bounded.rangeEnd_toNat]
    omega

/-- Nothing after an entry of a smaller type is in the way of a separable entry. -/
theorem Separable.after_smaller (hmap : NormalForm (before ++ found :: after))
    (hentry : Regular entry) (hsep : Separable (before ++ found :: after) entry)
    (hcolide : rangeColide found.range entry.range = true) (htype : found.type < entry.type) :
    ∀ e ∈ after, entry.range.finish ≤ e.range.base.toNat := by
  intro e he
  have hfound := hmap.regular found (by simp)
  by_contra hreach
  rw [not_le] at hreach
  have hstart := (USizeRange.rangeColide_iff hfound.bounded hentry.bounded).1 hcolide
  obtain ⟨hcolide', hbase⟩ := colide_after hmap hentry he hstart.2.le hreach
  exact lt_asymm htype ((hsep found (by simp) hcolide).2 e (by simp [he]) hcolide' hbase)

/-- The upper piece of a separable entry is separable from the map its lower piece went into. -/
theorem Separable.upper {middle : List HandoverMmapEntry}
    (hmap : NormalForm (before ++ found :: after)) (hentry : Regular entry)
    (hsep : Separable (before ++ found :: after) entry) (htype : entry.type < found.type)
    (hmiddle : NormalForm middle)
    (hold : ∀ f ∈ middle, f ∈ before ++ found :: after ∨
      f.range.finish ≤ found.range.base.toNat)
    (hregular : Regular ⟨rangeHalfOver entry.range found.range, entry.type⟩)
    (hbase : (rangeHalfOver entry.range found.range).base.toNat = found.range.finish)
    (hfinish : (rangeHalfOver entry.range found.range).finish = entry.range.finish)
    (hstart : entry.range.base.toNat < found.range.finish) :
    Separable middle ⟨rangeHalfOver entry.range found.range, entry.type⟩ := by
  have hfound := hmap.regular found (by simp)
  have hnonempty := hfound.nonempty
  have hmet : ∀ f ∈ middle,
      rangeColide f.range (rangeHalfOver entry.range found.range) = true →
      f ∈ before ++ found :: after ∧ rangeColide f.range entry.range = true := by
    intro f hf hcolide
    have hfregular := hmiddle.regular f hf
    rw [USizeRange.rangeColide_iff hfregular.bounded hregular.bounded, hbase, hfinish] at hcolide
    refine ⟨(hold f hf).resolve_right (by omega), ?_⟩
    rw [USizeRange.rangeColide_iff hfregular.bounded hentry.bounded]
    omega
  intro e he hcolide
  obtain ⟨heold, hecolide⟩ := hmet e he hcolide
  refine ⟨?_, ?_⟩
  · intro f hf hftype hend
    have hfregular := hmiddle.regular f hf
    have hfnonempty := hfregular.nonempty
    rw [← UInt64.toNat_inj, hfregular.bounded.rangeEnd_toNat] at hend
    simp only [hbase] at hend
    have hfold := (hold f hf).resolve_right (by omega)
    have heq := hmap.eq_of_overlap hfold (by simp : found ∈ _) (by omega) (by omega)
    rw [heq] at hftype
    exact absurd hftype (ne_of_gt htype)
  · intro f hf hcolide' hlt
    obtain ⟨hfold, hfcolide⟩ := hmet f hf hcolide'
    exact (hsep e heold hecolide).2 f hfold hfcolide hlt

/-- A new entry that is stronger than the first entry it meets takes its slot, and the pieces of
the old entry go around it. -/
theorem append_stronger {middle result : HandoverMmap}
    (hmap : NormalForm (before ++ found :: after)) (hentry : Regular entry)
    (hsep : Separable (before ++ found :: after) entry) (hpassed : ∀ e ∈ before, Passed entry e)
    (hcolide : rangeColide found.range entry.range = true) (htype : found.type < entry.type)
    (hlower : appendWithin depth ⟨before ++ entry :: after⟩
      ⟨rangeHalfUnder found.range entry.range, found.type⟩ = .ok middle)
    (hover : appendWithin depth middle
      ⟨rangeHalfOver found.range entry.range, found.type⟩ = .ok result) :
    NormalForm result.entries ∧ ∀ addr, coverage result.entries addr =
      max (claim entry addr) (coverage (before ++ found :: after) addr) := by
  have hfound := hmap.regular found (by simp)
  have hmeet := (USizeRange.rangeColide_iff hfound.bounded hentry.bounded).1 hcolide
  have hnonempty := hentry.nonempty
  have hleft : ∀ e ∈ before, e.range.finish ≤ entry.range.base.toNat := fun e he ↦
    (hpassed e he).finish_le (hmap.regular e (by simp [he])) hentry
  have hstored := NormalForm.insert_between hmap.of_append_left hmap.of_append_right.of_cons
    hentry hleft (hsep.after_smaller hmap hentry hcolide htype)
  obtain ⟨hmiddle, hcoverage, hjoined⟩ := append_piece hstored
    (lower_apart hstored hfound fun e he ↦ hmap.left_le e he found (by simp)) hlower
  have hupperPiece : rangeEmpty (rangeHalfOver found.range entry.range) = true ∨
      (Regular ⟨rangeHalfOver found.range entry.range, found.type⟩ ∧
        Apart middle.entries ⟨rangeHalfOver found.range entry.range, found.type⟩) := by
    refine (upper_piece hentry hfound).imp And.left fun ⟨hregular, hbase, hfinish⟩ ↦
      ⟨hregular, fun e he ↦ ?_⟩
    simp only [hbase, hfinish]
    rcases joined_lower hstored (by simp) hfound (ne_of_lt htype) (hjoined e he) with he | he
    · rcases List.mem_append.1 he with he | he
      · have := hleft e he
        exact Or.inl (by omega)
      · rcases List.mem_cons.1 he with rfl | he
        · exact Or.inl le_rfl
        · exact Or.inr (hmap.of_append_right.head_le e he)
    · exact Or.inl (by omega)
  obtain ⟨hnormal, hcoverage', _⟩ := append_piece hmiddle hupperPiece hover
  refine ⟨hnormal, fun addr ↦ ?_⟩
  rw [cut_coverage hentry hfound hmeet htype (hcoverage addr) (hcoverage' addr)]
  simp only [coverage_append, coverage_cons]
  ac_rfl

/-- Appending a separable entry keeps the normal form and raises the type of every address of the
entry to at least the type of the entry. -/
theorem append_separable (hmap : NormalForm entries) (hentry : Regular entry)
    (hsep : Separable entries entry) (h : appendWithin depth ⟨entries⟩ entry = .ok result) :
    NormalForm result.entries ∧
      ∀ addr, coverage result.entries addr = max (claim entry addr) (coverage entries addr) := by
  induction depth generalizing entries entry result with
  | zero => cases h
  | succ depth ih =>
    rcases appendWithin_cases hentry h with
      ⟨before, found, after, rfl, hpassed, htouch, htype, rfl⟩ |
      ⟨before, found, after, smaller, middle, winner, loser, rfl, hpassed, hcolide, hwinner,
        hdepth, hlower, hover⟩ |
      ⟨before, after, rfl, hpassed, hhead, rfl⟩
    · exact merge_spec hmap hentry hpassed htouch htype
        (hsep.after_merge hmap hentry htouch htype)
    · obtain rfl : depth = smaller := Nat.succ.inj hdepth
      rcases hwinner with ⟨htype, rfl, rfl⟩ | ⟨htype, rfl, rfl⟩
      · have hfound := hmap.regular found (by simp)
        have hmeet := (USizeRange.rangeColide_iff hfound.bounded hentry.bounded).1 hcolide
        have hleft : ∀ e ∈ before, e.range.finish ≤ entry.range.base.toNat := fun e he ↦
          (hpassed e he).finish_le (hmap.regular e (by simp [he])) hentry
        obtain ⟨hmiddle, hcoverage, hjoined⟩ := append_piece hmap
          (lower_apart hmap hentry hleft) hlower
        have hold : ∀ f ∈ middle.entries, f ∈ before ++ found :: after ∨
            f.range.finish ≤ found.range.base.toNat := fun f hf ↦
          joined_lower hmap (by simp) hentry (ne_of_lt htype) (hjoined f hf)
        have hupper : NormalForm result.entries ∧ ∀ addr, coverage result.entries addr =
            max (claim ⟨rangeHalfOver entry.range found.range, entry.type⟩ addr)
              (coverage middle.entries addr) := by
          rcases upper_piece hfound hentry with ⟨hempty, _⟩ | ⟨hregular, hbase, hfinish⟩
          · obtain rfl := appendWithin_empty hempty hover
            refine ⟨hmiddle, fun addr ↦ ?_⟩
            rw [claim_of_rangeEmpty hempty, max_eq_right bot_le]
          · exact ih hmiddle hregular
              (hsep.upper hmap hentry htype hmiddle hold hregular hbase hfinish hmeet.2) hover
        exact ⟨hupper.1, fun addr ↦ cut_coverage hfound hentry ⟨hmeet.2, hmeet.1⟩ htype
          (hcoverage addr) (hupper.2 addr)⟩
      · exact append_stronger hmap hentry hsep hpassed hcolide htype hlower hover
    · exact place_spec hmap hentry hpassed hhead

end Brutal.Boot
