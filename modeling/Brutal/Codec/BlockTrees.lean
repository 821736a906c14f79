import Brutal.Codec.Blocks

/-!
# The trees of a block

The code lengths at the beginning of a block are read as they are meant, and the trees are those of
their codes.
-/

namespace Brutal.Codec

open Io Lib

/-- A tree is built for accepted lengths. -/
theorem Accepted.build {t : HuffTree} {lengths : Cells ℕ} {num : ℕ}
    (h : Accepted (lengthAt lengths) num) (hnum : num ≤ 288)
    (hwritten : ∀ i < num, Written lengths i) (hlt : ∀ i < num, lengthAt lengths i < 16)
    (ht : t.symbols.length = 288) (limit : ℕ) :
    ∃ t', buildHuffTree t lengths num = .ok t' ∧ TreeFor (lengthAt lengths) num limit t' ∧
      t'.symbols.length = 288 := by
  have hok : ∃ t', buildHuffTree t lengths num = .ok t' := by
    rw [buildHuffTree_ok_iff hnum hwritten hlt ht]
    cases h with
    | inl h =>
      rw [Kraft, kraft_sum_eq hlt, ← complete_iff] at h
      exact ⟨h.2.1, fun _ ↦ h.2.2, fun hone ↦ absurd hone (by omega)⟩
    | inr h =>
      by_cases htotal : codeTotal (lengthAt lengths) num = 1
      · have hone := (codeCount_one_iff hlt htotal).mpr fun i hi hne ↦ by
          have hle := h.2 i hi
          omega
        exact ⟨codeCount_le_available hone ((codeTotal_eq hlt).trans htotal),
          fun hmany ↦ absurd hmany (by omega), fun _ ↦ hone⟩
      · have hzero := codeTotal_eq hlt
        rw [show codeTotal (lengthAt lengths) num = 0 by omega] at hzero
        refine ⟨fun l hl ↦ ?_, fun hmany ↦ absurd hmany (by omega), fun hone ↦ absurd hone htotal⟩
        have hmono := startOf_mono (codeCount (lengthAt lengths) num) (show l + 1 ≤ 16 from hl)
        rw [startOf] at hmono
        omega
  obtain ⟨t', ht'⟩ := hok
  have hbuilt := (buildHuffTree_spec hnum hwritten ht).2 t' ht'
  exact ⟨t', ht', ⟨hnum, hlt, hbuilt.codes, fun i _ huse ↦ hbuilt.le_maxSym i huse.1 huse.2⟩,
    hbuilt.symbols⟩

theorem order_idxOf {i : ℕ} (hi : i < 19) : order.idxOf (order.getD i 0) = i := by
  have hall : ∀ i < 19, order.idxOf (order.getD i 0) = i := by decide
  exact hall i hi

theorem getD_take (pre : List ℕ) (n k : ℕ) :
    (pre.take n).getD k 0 = if k < n then pre.getD k 0 else 0 := by
  rw [List.getD_eq_getElem?_getD, List.getElem?_take, List.getD_eq_getElem?_getD]
  by_cases hk : k < n
  · rw [if_pos hk, if_pos hk]
  · rw [if_neg hk, if_neg hk]
    rfl

/-- One more length is for the next symbol of the order. -/
theorem precodeLength_succ {pre : List ℕ} {n : ℕ} (hn : n < pre.length) (hpre : pre.length ≤ 19)
    (symbol : ℕ) :
    precodeLength (pre.take (n + 1)) symbol =
      if symbol = order.getD n 0 then pre[n] else precodeLength (pre.take n) symbol := by
  have hindex := order_idxOf (show n < 19 by omega)
  rw [precodeLength, precodeLength, getD_take, getD_take]
  by_cases hsymbol : symbol = order.getD n 0
  · rw [if_pos hsymbol, hsymbol, hindex, if_pos (Nat.lt_succ_self n), List.getD_eq_getElem?_getD,
      List.getElem?_eq_getElem hn]
    rfl
  · have hne : order.idxOf symbol ≠ n := by
      intro heq
      have hmem : order.idxOf symbol < order.length := by
        rw [heq]
        exact Nat.lt_of_lt_of_le hn hpre
      apply hsymbol
      rw [List.getD_eq_getElem?_getD, ← heq, List.getElem?_eq_getElem hmem, List.getElem_idxOf hmem]
      rfl
    rw [if_neg hsymbol]
    by_cases hlt : order.idxOf symbol < n
    · rw [if_pos (Nat.lt_succ_of_lt hlt), if_pos hlt]
    · rw [if_neg (by omega), if_neg hlt]

variable {data : List UInt8} {rest : List Bool}

/-- The array after the lengths for the first symbols of the order. -/
structure PrecodeRead (pre : List ℕ) (n : ℕ) (lengths : Cells ℕ) : Prop where
  size : lengths.length = 320
  written : ∀ j < 19, Written lengths j
  unwritten : ∀ j, 19 ≤ j → lengthAt lengths j = 0
  lengths : ∀ j, lengthAt lengths j = precodeLength (pre.take n) j

theorem lengthAt_writeCell {lengths lengths' : Cells ℕ} {index value : ℕ}
    (h : writeCell lengths index value = .ok lengths') (j : ℕ) :
    lengthAt lengths' j = if j = index then value else lengthAt lengths j := by
  simp only [lengthAt, getElem?_writeCell h]
  by_cases hj : j = index
  · simp only [if_pos hj]
  · simp only [if_neg hj]

theorem precodeTurn_decode {pre : List ℕ} {n : ℕ} (hn : n < pre.length) (hpre : pre.length ≤ 19)
    (hlt : ∀ length ∈ pre, length < 8) {lengths : Cells ℕ} {reader : IoRBits IoMem}
    (h : PrecodeRead pre n lengths)
    (hreader : Poised data ((pre.drop n).flatMap (natBits 3) ++ rest) reader) :
    ∃ state, precodeTurn (lengths, reader) n = .ok state ∧ PrecodeRead pre (n + 1) state.1 ∧
      Poised data ((pre.drop (n + 1)).flatMap (natBits 3) ++ rest) state.2 := by
  rw [List.drop_eq_getElem_cons hn, List.flatMap_cons, List.append_assoc] at hreader
  obtain ⟨reader', hpop, hreader'⟩ := hreader.ensureThenPop (length_natBits 3 _) (by decide)
  have hvalue : natOfBits (natBits 3 pre[n]) = pre[n] := by
    rw [natOfBits_natBits]
    exact Nat.mod_eq_of_lt (hlt _ (List.getElem_mem hn))
  have hplace : order.getD n 0 < 19 := by
    have hall : ∀ i < 19, order.getD i 0 < 19 := by decide
    exact hall n (by omega)
  have hread := readTable_getD (show n < order.length from Nat.lt_of_lt_of_le hn hpre)
  obtain ⟨lengths', hwrite⟩ := exists_writeCell pre[n] (show order.getD n 0 < lengths.length by
    rw [h.size]; omega)
  refine ⟨(lengths', reader'), ?_, ⟨(length_writeCell hwrite).trans h.size, ?_, ?_, ?_⟩, hreader'⟩
  · simp only [precodeTurn, hpop, hvalue, hread, hwrite, ok_bind]
    rfl
  · exact fun j hj ↦ (h.written j hj).writeCell hwrite
  · intro j hj
    rw [lengthAt_writeCell hwrite, if_neg (by omega), h.unwritten j hj]
  · intro j
    rw [lengthAt_writeCell hwrite, precodeLength_succ hn hpre, h.lengths]

/-- The first bits of a block with codes of its own. -/
theorem treeSizes_decode {hlit hdist hclen : ℕ} (hlit_le : 257 ≤ hlit ∧ hlit ≤ 286)
    (hdist_le : 1 ≤ hdist ∧ hdist ≤ 32) (hclen_le : 4 ≤ hclen ∧ hclen ≤ 19)
    {reader : IoRBits IoMem}
    (hreader : Poised data (natBits 5 (hlit - 257) ++ (natBits 5 (hdist - 1) ++
      (natBits 4 (hclen - 4) ++ rest))) reader) :
    ∃ reader', treeSizes reader = .ok ((hlit, hdist, hclen), reader') ∧
      Poised data rest reader' := by
  obtain ⟨r₀, hensure, hr₀, hcount, hfew⟩ := hreader.1.ensure (show 14 ≤ 16 by decide)
    (by simp only [List.length_append, length_natBits]; omega)
  have hfirst := hreader.2
  have hpops : ∀ (n value : ℕ) (tail : List Bool) (r : IoRBits IoMem), value < 2 ^ n → n < 31 →
      n ≤ r.bitcount → Stands data (natBits n value ++ tail) r →
        ∃ r', ioRbitsPopBits r n = .ok (value, r') ∧ Stands data tail r' ∧
          r'.bitcount = r.bitcount - n := by
    intro n value tail r hvalue hsmall hle hr
    have hlength := length_natBits n value
    obtain ⟨r', hpop, hr', hleft⟩ := hr.pop (by rw [hlength]; exact hsmall)
      (by rw [hlength]; exact hle)
    rw [natOfBits_natBits, Nat.mod_eq_of_lt hvalue, hlength] at hpop
    rw [hlength] at hleft
    exact ⟨r', hpop, hr', hleft⟩
  obtain ⟨r₁, hpop₁, hr₁, hleft₁⟩ := hpops 5 _ _ r₀ (by omega) (by decide) (by omega) hr₀
  obtain ⟨r₂, hpop₂, hr₂, hleft₂⟩ := hpops 5 _ _ r₁ (by omega) (by decide) (by omega) hr₁
  obtain ⟨r₃, hpop₃, hr₃, hleft₃⟩ := hpops 4 _ _ r₂ (by omega) (by decide) (by omega) hr₂
  refine ⟨r₃, ?_, hr₃, by omega⟩
  simp only [treeSizes, hensure, ok_bind, hpop₁, hpop₂, hpop₃]
  rw [Nat.sub_add_cancel hlit_le.1, Nat.sub_add_cancel hdist_le.1, Nat.sub_add_cancel hclen_le.1]
  rfl

section Trees

variable {ω : Type} [IoWriter ω]

omit [IoWriter ω] in
/-- The tree of the code length codes. -/
theorem buildPrecodeTree_decode {ctx : DeflateDecompressor IoMem ω} {hlit hdist : ℕ}
    {pre : List ℕ} (hlit_le : 257 ≤ hlit ∧ hlit ≤ 286) (hdist_le : 1 ≤ hdist ∧ hdist ≤ 30)
    (hpre_le : 4 ≤ pre.length ∧ pre.length ≤ 19) (hpre_lt : ∀ length ∈ pre, length < 8)
    (hpre : Accepted (precodeLength pre) 19) (hctx : ctx.lengthTree.symbols.length = 288)
    (hreader : Poised data (natBits 5 (hlit - 257) ++ (natBits 5 (hdist - 1) ++
      (natBits 4 (pre.length - 4) ++ (pre.flatMap (natBits 3) ++ rest)))) ctx.bitReader) :
    ∃ lengths tree reader, buildPrecodeTree ctx =
        .ok ((hlit, hdist, lengths), { ctx with lengthTree := tree, bitReader := reader }) ∧
      TreeFor (precodeLength pre) 19 0 tree ∧ tree.symbols.length = 288 ∧
      lengths.length = 320 ∧ (∀ j, 19 ≤ j → lengthAt lengths j = 0) ∧
      Poised data rest reader := by
  obtain ⟨r₁, hsizes, hr₁⟩ := treeSizes_decode hlit_le (by omega) hpre_le hreader
  obtain ⟨zeros, hzeros, hlength, hcells⟩ := fillCells 0 19 (Cells.make ℕ (288 + 32)) 0
    (by rw [length_make]; decide)
  rw [← List.range_eq_range'] at hzeros
  have hzeroAt : ∀ j, lengthAt zeros j = 0 := by
    intro j
    rw [lengthAt, hcells, Cells.make, List.getElem?_replicate]
    split_ifs <;> rfl
  have hinit : PrecodeRead pre 0 zeros := by
    refine ⟨by rw [hlength, length_make], ?_, fun j _ ↦ hzeroAt j, fun j ↦ ?_⟩
    · exact fun j hj ↦ ⟨0, by rw [hcells, if_pos (by omega)]⟩
    · rw [hzeroAt, precodeLength, getD_take, if_neg (Nat.not_lt_zero _)]
  obtain ⟨⟨lengths, r₂⟩, hfold, hread, hr₂⟩ :
      ∃ state, (List.range pre.length).foldlM precodeTurn (zeros, r₁) = .ok state ∧
        PrecodeRead pre pre.length state.1 ∧
        Poised data ((pre.drop pre.length).flatMap (natBits 3) ++ rest) state.2 := by
    apply range_ok (fun n (state : Cells ℕ × IoRBits IoMem) ↦ PrecodeRead pre n state.1 ∧
      Poised data ((pre.drop n).flatMap (natBits 3) ++ rest) state.2)
    · exact ⟨hinit, hr₁⟩
    · exact fun n hn state hstate ↦ precodeTurn_decode hn hpre_le.2 hpre_lt hstate.1 hstate.2
  have hlengths : lengthAt lengths = precodeLength pre := by
    funext j
    rw [hread.lengths, List.take_length]
  have hsmall : ∀ j, precodeLength pre j < 16 := by
    intro j
    rw [precodeLength, List.getD_eq_getElem?_getD]
    cases hget : pre[order.idxOf j]? with
    | none => decide
    | some length =>
      have hlt := hpre_lt length (List.mem_of_getElem? hget)
      exact Nat.lt_trans hlt (by decide)
  rw [← hlengths] at hpre hsmall
  obtain ⟨tree, htree, hfor, hsymbols⟩ := hpre.build (t := ctx.lengthTree) (by decide) hread.written
    (fun j _ ↦ hsmall j) hctx 0
  rw [hlengths] at hfor
  rw [List.drop_length, List.flatMap_nil, List.nil_append] at hr₂
  refine ⟨lengths, tree, r₂, ?_, hfor, hsymbols, hread.size, hread.unwritten, hr₂⟩
  simp only [buildPrecodeTree, hsizes, ok_bind, if_neg (show ¬ (286 < hlit ∨ 30 < hdist) by omega),
    hzeros, hfold, htree]
  rfl

/-- The array after some code lengths were read. -/
structure AllRead (front : List ℕ) (lengths : Cells ℕ) : Prop where
  size : lengths.length = 320
  read : ∀ j (hj : j < front.length), lengths[j]? = some (some front[j])
  rest : ∀ j, front.length ≤ j → 19 ≤ j → lengthAt lengths j = 0

theorem AllRead.written {front : List ℕ} {lengths : Cells ℕ} (h : AllRead front lengths) {j : ℕ}
    (hj : j < front.length) : Written lengths j :=
  ⟨front[j], h.read j hj⟩

/-- Enough code lengths fill the array. -/
theorem AllRead.lengthAt_eq {front : List ℕ} {lengths : Cells ℕ} (h : AllRead front lengths)
    (hmany : 19 ≤ front.length) (j : ℕ) : lengthAt lengths j = front.getD j 0 := by
  by_cases hj : j < front.length
  · rw [lengthAt, h.read j hj, List.getD_eq_getElem?_getD, List.getElem?_eq_getElem hj]
    rfl
  · rw [h.rest j (Nat.le_of_not_lt hj) (by omega), List.getD_eq_getElem?_getD,
      List.getElem?_eq_none (Nat.le_of_not_lt hj)]
    rfl

/-- A turn of the loop that adds a length some times. -/
theorem codeLengthsTurn_decode {tree : HuffTree} {total : ℕ} (htotal : total ≤ 316)
    {front : List ℕ} {lengths : Cells ℕ} (h : AllRead front lengths)
    {reader reader' reader'' : IoRBits IoMem} {symbol length count : ℕ}
    (hnext : huffDecoderNext tree reader = .ok (symbol, reader'))
    (hrepeat : repeatOf ⟨front.length, lengths, reader⟩ symbol reader' =
      .ok ((length, count), reader''))
    (hpos : 0 < count) (hle : front.length + count ≤ total) :
    ∃ lengths', codeLengthsTurn tree total ⟨front.length, lengths, reader⟩ =
        .ok (.inl ⟨(front ++ List.replicate count length).length, lengths', reader''⟩) ∧
      AllRead (front ++ List.replicate count length) lengths' := by
  obtain ⟨lengths', hfill, hlength, hcells⟩ := fillCells front.length count lengths length
    (by rw [h.size]; omega)
  refine ⟨lengths', ?_, hlength.trans h.size, ?_, ?_⟩
  · simp only [codeLengthsTurn, if_pos (show front.length < total by omega), hnext, ok_bind,
      hrepeat, if_neg (show ¬ count > total - front.length by omega), hfill, List.length_append,
      List.length_replicate]
    rfl
  · intro j hj
    rw [List.length_append, List.length_replicate] at hj
    rw [hcells]
    by_cases hold : j < front.length
    · rw [if_neg (by omega), h.read j hold, List.getElem_append_left hold]
    · rw [if_pos ⟨Nat.le_of_not_lt hold, hj⟩, List.getElem_append_right (Nat.le_of_not_lt hold),
        List.getElem_replicate]
  · intro j hj hlarge
    rw [List.length_append, List.length_replicate] at hj
    rw [lengthAt, hcells, if_neg (by omega)]
    exact h.rest j (by omega) hlarge

theorem LengthsBits.length_le {pre : ℕ → ℕ} {total : ℕ} {front all : List ℕ} {bits : List Bool}
    (h : LengthsBits pre total front all bits) : front.length ≤ total ∧ all.length = total := by
  induction h with
  | done htotal => exact ⟨Nat.le_of_eq htotal, htotal⟩
  | length _ _ _ ih | again _ _ _ ih | zeros _ _ _ ih | manyZeros _ _ _ ih =>
    rw [List.length_append] at ih
    exact ⟨by omega, ih.2⟩

/-- The loop over the code lengths reads what they stand for. -/
theorem codeLengths_decode {pre : ℕ → ℕ} {total : ℕ} (htotal : total ≤ 316) {tree : HuffTree}
    (htree : TreeFor pre 19 0 tree) {front all : List ℕ} {bits : List Bool}
    (h : LengthsBits pre total front all bits) :
    ∀ (lengths : Cells ℕ) (reader : IoRBits IoMem) (turns : ℕ), AllRead front lengths →
      Poised data (bits ++ rest) reader → total < front.length + turns →
      ∃ lengths' reader', loop (codeLengthsTurn tree total) .fuel turns
          ⟨front.length, lengths, reader⟩ = .ok ⟨total, lengths', reader'⟩ ∧
        AllRead all lengths' ∧ Poised data rest reader' := by
  have hstep : ∀ {front all : List ℕ} {bits extra : List Bool} {symbol length count : ℕ},
      LengthsBits pre total (front ++ List.replicate count length) all bits → 0 < count →
      InUse pre 19 symbol →
      (∀ (lengths : Cells ℕ) (reader reader' : IoRBits IoMem), AllRead front lengths →
        Poised data (extra ++ (bits ++ rest)) reader' →
        ∃ reader'', repeatOf ⟨front.length, lengths, reader⟩ symbol reader' =
          .ok ((length, count), reader'') ∧ Poised data (bits ++ rest) reader'') →
      (∀ (lengths : Cells ℕ) (reader : IoRBits IoMem) (turns : ℕ),
        AllRead (front ++ List.replicate count length) lengths →
        Poised data (bits ++ rest) reader →
        total < (front ++ List.replicate count length).length + turns →
        ∃ lengths' reader', loop (codeLengthsTurn tree total) .fuel turns
            ⟨(front ++ List.replicate count length).length, lengths, reader⟩ =
              .ok ⟨total, lengths', reader'⟩ ∧
          AllRead all lengths' ∧ Poised data rest reader') →
      ∀ (lengths : Cells ℕ) (reader : IoRBits IoMem) (turns : ℕ), AllRead front lengths →
        Poised data (canonicalBits pre 19 symbol ++ (extra ++ bits) ++ rest) reader →
        total < front.length + turns →
        ∃ lengths' reader', loop (codeLengthsTurn tree total) .fuel turns
            ⟨front.length, lengths, reader⟩ = .ok ⟨total, lengths', reader'⟩ ∧
          AllRead all lengths' ∧ Poised data rest reader' := by
    intro front all bits extra symbol length count htail hpos huse hrepeat ih lengths reader turns
      hread hreader hturns
    simp only [List.append_assoc] at hreader
    obtain ⟨r₁, hnext, hr₁⟩ := htree.next huse hreader
    obtain ⟨r₂, hrepeat', hr₂⟩ := hrepeat lengths reader r₁ hread hr₁
    have hle := htail.length_le.1
    rw [List.length_append, List.length_replicate] at hle
    obtain ⟨lengths', hturn, hread'⟩ := codeLengthsTurn_decode htotal hread hnext hrepeat' hpos hle
    obtain ⟨turns, rfl⟩ := Nat.exists_eq_add_of_lt (show 0 < turns by omega)
    obtain ⟨lengths'', reader', hloop, hall⟩ := ih lengths' r₂ (0 + turns) hread' hr₂
      (by rw [List.length_append, List.length_replicate]; omega)
    exact ⟨lengths'', reader', by rw [loop_turn hturn, hloop], hall⟩
  induction h with
  | done hlength =>
    intro lengths reader turns hread hreader hturns
    rename_i front
    obtain ⟨turns, rfl⟩ := Nat.exists_eq_add_of_lt (show 0 < turns by omega)
    have hturn : codeLengthsTurn tree total ⟨front.length, lengths, reader⟩ =
        .ok (.inr ⟨total, lengths, reader⟩) := by
      rw [codeLengthsTurn, if_neg (Nat.not_lt.mpr (Nat.le_of_eq hlength.symm)), hlength]
      rfl
    exact ⟨lengths, reader, loop_leave hturn _, hread, hreader⟩
  | length hlength huse tail ih =>
    rename_i front all bits length
    have htail : LengthsBits pre total (front ++ List.replicate 1 length) all bits := tail
    have hsingle := @hstep front all bits [] length length 1 htail Nat.one_pos ⟨by omega, huse⟩
    apply hsingle _ ih
    intro lengths reader reader' _ hreader'
    refine ⟨reader', ?_, hreader'⟩
    unfold repeatOf
    split
    next => exact absurd hlength (by decide)
    next => exact absurd hlength (by decide)
    next => exact absurd hlength (by decide)
    next => rfl
  | again hextra huse tail ih =>
    rename_i front all bits extra last
    apply hstep tail (by omega) ⟨by decide, huse⟩ _ ih
    intro lengths reader reader' hread hreader'
    obtain ⟨reader'', hpop, hreader''⟩ := hreader'.ensureThenPop hextra (by decide)
    have hcell : readCell lengths ((front ++ [last]).length - 1) = .ok last := by
      have hget := hread.read front.length (by simp)
      rw [List.getElem_concat_length rfl] at hget
      rw [List.length_append, List.length_singleton, Nat.add_sub_cancel]
      exact readCell_eq_ok.mpr hget
    refine ⟨reader'', ?_, hreader''⟩
    simp only [repeatOf, hpop, ok_bind, hcell, if_neg (show (front ++ [last]).length ≠ 0 by simp)]
    rfl
  | zeros hextra huse tail ih =>
    apply hstep tail (by omega) ⟨by decide, huse⟩ _ ih
    intro lengths reader reader' _ hreader'
    obtain ⟨reader'', hpop, hreader''⟩ := hreader'.ensureThenPop hextra (by decide)
    refine ⟨reader'', ?_, hreader''⟩
    simp only [repeatOf, hpop, ok_bind]
    rfl
  | manyZeros hextra huse tail ih =>
    apply hstep tail (by omega) ⟨by decide, huse⟩ _ ih
    intro lengths reader reader' _ hreader'
    obtain ⟨reader'', hpop, hreader''⟩ := hreader'.ensureThenPop hextra (by decide)
    refine ⟨reader'', ?_, hreader''⟩
    simp only [repeatOf, hpop, ok_bind]
    rfl

theorem LengthsBits.lt {pre : ℕ → ℕ} {total : ℕ} {front all : List ℕ} {bits : List Bool}
    (h : LengthsBits pre total front all bits) (hfront : ∀ length ∈ front, length < 16) :
    ∀ length ∈ all, length < 16 := by
  have hrepeat : ∀ (front : List ℕ) (count length : ℕ), (∀ l ∈ front, l < 16) → length < 16 →
      ∀ l ∈ front ++ List.replicate count length, l < 16 := by
    intro front count length hfront hlength l hl
    cases List.mem_append.mp hl with
    | inl hl => exact hfront l hl
    | inr hl => rwa [List.eq_of_mem_replicate hl]
  induction h with
  | done _ => exact hfront
  | length hlength _ _ ih => exact ih (hrepeat _ 1 _ hfront hlength)
  | again _ _ _ ih =>
    exact ih (hrepeat _ _ _ hfront (hfront _ (List.mem_append_right _ (List.mem_singleton_self _))))
  | zeros _ _ _ ih => exact ih (hrepeat _ _ _ hfront (by decide))
  | manyZeros _ _ _ ih => exact ih (hrepeat _ _ _ hfront (by decide))

omit [IoWriter ω] in
/-- The trees are those of the codes at the beginning of the block. -/
theorem buildDynamicHuffTrees_decode {codes : BlockCodes} {bits : List Bool}
    (h : TreesBits 30 codes bits) (hend : InUse codes.lit codes.numLit 256)
    {ctx : DeflateDecompressor IoMem ω} (hlitSize : ctx.lengthTree.symbols.length = 288)
    (hdistSize : ctx.distTree.symbols.length = 288)
    (hreader : Poised data (bits ++ rest) ctx.bitReader) :
    ∃ ctx', buildDynamicHuffTrees ctx = .ok ctx' ∧ HasTrees codes ctx' ∧
      ctx'.window = ctx.window ∧ Poised data rest ctx'.bitReader ∧
      ctx'.lengthTree.symbols.length = 288 ∧ ctx'.distTree.symbols.length = 288 := by
  obtain @⟨hlit, hdist, pre, all, bits, hlit_le, hdist_le, hpre_le, hpre_lt, hpre, hlengths,
    hlit_ok, hdist_ok⟩ := h
  simp only [List.append_assoc] at hreader
  obtain ⟨lengths, tree, r₁, hprecode, htree, hsymbols, hsize, hzero, hr₁⟩ :=
    buildPrecodeTree_decode hlit_le hdist_le hpre_le hpre_lt hpre hlitSize hreader
  have htotal : all.length = hlit + hdist := hlengths.length_le.2
  have hread : AllRead [] lengths :=
    ⟨hsize, fun j hj ↦ absurd hj (Nat.not_lt_zero j), fun j _ hj ↦ hzero j hj⟩
  obtain ⟨lengths', r₂, hloop, hall, hr₂⟩ := codeLengths_decode (by omega) htree hlengths lengths r₁
    (hlit + hdist + 1) hread hr₁ (by rw [List.length_nil]; omega)
  have hlengthAt := hall.lengthAt_eq (by omega)
  have hlt : ∀ j, all.getD j 0 < 16 := by
    intro j
    rw [List.getD_eq_getElem?_getD]
    cases hget : all[j]? with
    | none => decide
    | some length =>
      exact hlengths.lt (fun _ h ↦ nomatch h) length (List.mem_of_getElem? hget)
  have hlit_eq : lengthAt lengths' = fun j ↦ all.getD j 0 := funext hlengthAt
  have hdist_eq : lengthAt (lengths'.drop hlit) = fun j ↦ all.getD (hlit + j) 0 := by
    funext j
    rw [lengthAt_drop, hlengthAt]
  have hdrop : ∀ j < hdist, Written (lengths'.drop hlit) j := by
    intro j hj
    rw [Written, List.getElem?_drop]
    exact hall.written (by omega)
  rw [← hlit_eq] at hlit_ok
  rw [← hdist_eq] at hdist_ok
  obtain ⟨litTree, hlitTree, hlitFor, hlitSymbols⟩ := hlit_ok.build (t := tree) (by omega)
    (fun j hj ↦ hall.written (by omega)) (fun j _ ↦ by rw [hlengthAt]; exact hlt j) hsymbols 286
  obtain ⟨distTree, hdistTree, hdistFor, hdistSymbols⟩ := hdist_ok.build (t := ctx.distTree)
    (by omega) hdrop (fun j _ ↦ by rw [lengthAt_drop, hlengthAt]; exact hlt _) hdistSize 30
  have hcell : readCell lengths' 256 = .ok (lengthAt lengths' 256) :=
    readCell_of_written (hall.written (by omega))
  have hne : lengthAt lengths' 256 ≠ 0 := by
    rw [hlengthAt]
    exact hend.2
  rw [hlit_eq] at hlitFor
  rw [hdist_eq] at hdistFor
  refine ⟨{ ctx with lengthTree := litTree, distTree := distTree, bitReader := r₂ }, ?_,
    ⟨hlitFor, hdistFor⟩, rfl, hr₂, hlitSymbols, hdistSymbols⟩
  rw [buildDynamicHuffTrees, hprecode, ok_bind]
  simp only [Nat.add_comm hdist hlit]
  rw [show (0 : ℕ) = ([] : List ℕ).length from rfl, hloop, ok_bind]
  simp only [buildCodeTrees, hcell, ok_bind, if_neg hne, hlitTree, hdistTree]
  rfl

omit [IoWriter ω] in
/-- Trees with more than 30 distance codes are refused. -/
theorem TreesBits.supported_or_refused {codes : BlockCodes} {bits : List Bool}
    (h : TreesBits 32 codes bits) {ctx : DeflateDecompressor IoMem ω}
    (hreader : Poised data (bits ++ rest) ctx.bitReader) :
    TreesBits 30 codes bits ∨
      buildDynamicHuffTrees ctx = .error (.error .tooManySymbols) := by
  obtain @⟨hlit, hdist, pre, all, bits, hlit_le, hdist_le, hpre_le, hpre_lt, hpre, hlengths,
    hlit_ok, hdist_ok⟩ := h
  by_cases hfew : hdist ≤ 30
  · exact Or.inl ⟨hlit_le, ⟨hdist_le.1, hfew⟩, hpre_le, hpre_lt, hpre, hlengths, hlit_ok, hdist_ok⟩
  · right
    simp only [List.append_assoc] at hreader
    obtain ⟨reader, hsizes, -⟩ := treeSizes_decode hlit_le hdist_le hpre_le hreader
    have hmany : 286 < hlit ∨ 30 < hdist := Or.inr (Nat.lt_of_not_le hfew)
    simp only [buildDynamicHuffTrees, buildPrecodeTree, hsizes, ok_bind, if_pos hmany]
    rfl

end Trees

end Brutal.Codec
