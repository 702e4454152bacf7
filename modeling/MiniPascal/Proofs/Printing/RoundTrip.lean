import MiniPascal.Proofs.Printing.Lexed
import MiniPascal.Proofs.Printing.Parsed

/-!
Reading what was printed. `reads_back_iff` tells the trees that come back from their text, and
`reads_again_iff` the programs that do. The limit of depth counts the parentheses of the text, so
reading may accept a program and refuse its text.
-/

set_option autoImplicit false
set_option relaxedAutoImplicit false

namespace MiniPascal

namespace Program

private theorem ofString_text_eq_ok_iff {t p : Program} (h : t.Fits Binary64.Finite) :
    ofString t.text = .ok p ↔ t.derivation.Within 1 ∧ t.derivation.tree = p := by
  have hderives := derives_text h
  rw [ofString_eq_ok_iff]
  constructor
  · rintro ⟨d, hd, rfl, hother⟩
    obtain rfl : d = t.derivation := hother.eq hderives
    exact ⟨hd, rfl⟩
  · rintro ⟨hd, rfl⟩
    exact ⟨t.derivation, hd, rfl, hderives⟩

theorem WellFormed.ofString_text_eq_ok_iff {t p : Program} (h : t.WellFormed) :
    ofString t.text = .ok p ↔ (∀ depth ∈ t.printedDepths, depth ≤ Rule.limit) ∧ t = p := by
  have hfinite : t.Fits Binary64.Finite := h.fits_finite h.same_self
  rw [Program.ofString_text_eq_ok_iff hfinite, within_derivation h, tree_derivation h]

/-- Exactly the well-formed trees whose text is not too deep come back from it. -/
theorem reads_back_iff (t : Program) :
    (∃ p, ofString t.text = .ok p ∧ p.same t = true) ↔
      t.WellFormed ∧ ∀ depth ∈ t.printedDepths, depth ≤ Rule.limit := by
  constructor
  · rintro ⟨p, hp, hsame⟩
    have hparsed : p.WellFormed := wellFormed_of_ofString hp
    have hfinite : t.Fits Binary64.Finite := hparsed.fits_finite hsame
    obtain ⟨hwithin, rfl⟩ := (ofString_text_eq_ok_iff hfinite).mp hp
    have hwell : t.WellFormed := wellFormed_of_same_derivation hfinite hsame
    exact ⟨hwell, (within_derivation hwell).mp hwithin⟩
  · rintro ⟨hwell, hdepths⟩
    exact ⟨t, hwell.ofString_text_eq_ok_iff.mpr ⟨hdepths, rfl⟩, hwell.same_self⟩

/-! A row of signs is one level deep for each sign, but its text has parentheses around each and is
four levels deep for each. -/

section Signs

def signs : Nat → Expr
  | 0 => .integer 1
  | n + 1 => .unary .minus (signs n)

/-- The program that assigns a number behind so many signs. -/
def signed (n : Nat) : Program := ⟨"p", [], [.assign "a" (signs n)]⟩

def signedSource (n : Nat) : String :=
  "PROGRAM p; BEGIN a := " ++ String.ofList (List.replicate n '-') ++ "1 END."

private def factorOfSigns : Nat → Derivation .factor
  | 0 => .integer 1
  | n + 1 => .signed .minus (factorOfSigns n)

private def derivationOfSigns (n : Nat) : Derivation .program :=
  .program "p" (.block (.declarations [] []) (.compoundStatement (.statementList
    (.assignment (.assignmentStatement "a" (.ofFactor (factorOfSigns n)))) [])))

private theorem tree_factorOfSigns (n : Nat) : (factorOfSigns n).tree = signs n := by
  induction n with
  | zero => rw [factorOfSigns, Derivation.tree, signs]
  | succ n ih => rw [factorOfSigns, Derivation.tree, ih, signs]

private theorem within_factorOfSigns (n depth : Nat) :
    (factorOfSigns n).Within depth ↔ depth + n ≤ Rule.limit := by
  induction n generalizing depth with
  | zero => rw [factorOfSigns, Derivation.within_integer, Nat.add_zero]
  | succ n ih =>
    rw [factorOfSigns, Derivation.within_signed, ih]
    omega

private theorem lexes_factorOfSigns (n : Nat) {rest : List Char} (hrest : Parted rest) :
    Lexes (List.replicate n '-' ++ '1' :: rest) (factorOfSigns n).yield rest := by
  induction n with
  | zero =>
    have hone : Lexes ('1' :: rest) [.integer 1] rest := lexes_integer (n := 1) (by decide) hrest
    rw [factorOfSigns, Derivation.yield, List.replicate_zero, List.nil_append]
    exact hone
  | succ n ih =>
    rw [factorOfSigns, Derivation.yield, List.replicate_succ]
    exact (lexes_sign .minus _).cons ih

private theorem isName_p : IsName "p" :=
  ⟨by decide, fun w => by cases w <;> decide⟩

private theorem isName_a : IsName "a" :=
  ⟨by decide, fun w => by cases w <;> decide⟩

private theorem derives_signedSource (n : Nat) :
    (derivationOfSigns n).Derives (signedSource n) := by
  have hdot : Lexes ['.'] [.mark .dot] [] := lexes_mark .dot (by simp) (by simp)
  have hend := (lexes_reserved .blockEnd (.cons (by decide))).cons hdot
  have hsigns := (lexes_factorOfSigns n (.cons (by decide))).append hend.space
  have hassign := (lexes_plain_mark (m := .assign) (by decide) (by decide)).cons hsigns.space
  have htarget := (lexes_name isName_a (.cons (by decide))).cons hassign.space
  have hbegin := (lexes_reserved .blockBegin (.cons (by decide))).cons htarget.space
  have hsemicolon := (lexes_plain_mark (m := .semicolon) (by decide) (by decide)).cons hbegin.space
  have hname := (lexes_name isName_p (.cons (by decide))).cons hsemicolon
  have hprogram := (lexes_reserved .program (.cons (by decide))).cons hname.space
  have hyield : (derivationOfSigns n).yield =
      .reserved .program :: .identifier "p" :: .mark .semicolon :: .reserved .blockBegin ::
        .identifier "a" :: .mark .assign :: ((factorOfSigns n).yield ++
          [.reserved .blockEnd, .mark .dot]) := by
    simp [derivationOfSigns, Derivation.yield]
  have hsource : signedSource n = String.ofList (Reserved.program.text.toList ++ ' ' ::
      ("p".toList ++ (Mark.semicolon.chars ++ ' ' :: (Reserved.blockBegin.text.toList ++ ' ' ::
        ("a".toList ++ ' ' :: (Mark.assign.chars ++ ' ' :: (List.replicate n '-' ++ '1' :: ' ' ::
          (Reserved.blockEnd.text.toList ++ ['.'])))))))) := by
    unfold signedSource
    apply String.toList_inj.mp
    simp [Reserved.text, Mark.chars]
  rw [hsource]
  apply Derivation.derives_of_lexes
  rw [hyield]
  exact hprogram

private theorem ofString_signedSource_eq_ok_iff {n : Nat} {p : Program} :
    ofString (signedSource n) = .ok p ↔ n ≤ 503 ∧ signed n = p := by
  have hderives := derives_signedSource n
  have htree : (derivationOfSigns n).tree = signed n := by
    simp [derivationOfSigns, Derivation.tree, tree_factorOfSigns, signed]
  have hwithin : (derivationOfSigns n).Within 1 ↔ n ≤ 503 := by
    simp only [derivationOfSigns, Derivation.within_program, Derivation.within_block]
    simp [within_factorOfSigns, Rule.limit]
    omega
  rw [ofString_eq_ok_iff]
  constructor
  · rintro ⟨d, hd, rfl, hother⟩
    obtain rfl : d = derivationOfSigns n := hother.eq hderives
    exact ⟨hwithin.mp hd, htree.symm⟩
  · rintro ⟨hn, rfl⟩
    exact ⟨derivationOfSigns n, hwithin.mpr hn, htree, hderives⟩

private theorem fits_signs (n : Nat) : (signs n).Fits Binary64.Literal := by
  induction n with
  | zero => change (0 : Int) ≤ Int64.toInt 1; decide
  | succ n ih => exact ih

private theorem wellFormed_signed (n : Nat) : (signed n).WellFormed where
  program_name := isName_p
  order := .nil
  each := List.forall_mem_nil _
  body_fits := .compound (List.cons_ne_nil _ _)
    (List.forall_mem_singleton.mpr (.assign isName_a (fits_signs n)))

private theorem printedDepths_signs (n depth : Nat) :
    (∀ k ∈ (signs n).printedDepths depth, k ≤ Rule.limit) ↔ depth + 4 * n ≤ Rule.limit := by
  induction n generalizing depth with
  | zero => simp [signs, Expr.printedDepths]
  | succ n ih =>
    rw [signs, Expr.printedDepths, List.forall_mem_cons, ih]
    omega

private theorem ofString_text_signed_eq_ok_iff {n : Nat} {p : Program} :
    ofString (signed n).text = .ok p ↔ n ≤ 125 ∧ signed n = p := by
  have hdepths : (∀ depth ∈ (signed n).printedDepths, depth ≤ Rule.limit) ↔ n ≤ 125 := by
    have hlimit : Rule.limit = 512 := rfl
    rw [printedDepths, signed]
    simp only [Declaration.printedDepthsAll, Statement.bodyDepths, Statement.printedDepthsAll,
      Statement.printedDepths, List.nil_append, List.append_nil, List.forall_mem_cons,
      printedDepths_signs]
    omega
  rw [(wellFormed_signed n).ofString_text_eq_ok_iff, hdepths]

end Signs

/-- A program that was read comes back from its text exactly if the text is not too deep. -/
theorem reads_again_iff {source : String} {p : Program} (h : ofString source = .ok p) :
    ofString p.text = .ok p ↔ ∀ depth ∈ p.printedDepths, depth ≤ Rule.limit := by
  have hwell : p.WellFormed := wellFormed_of_ofString h
  rw [hwell.ofString_text_eq_ok_iff]
  exact and_iff_left rfl

theorem signed_reads_again :
    ofString (signedSource 2) = .ok (signed 2) ∧
      (ofString (signed 2).text = .ok (signed 2) ↔
        ∀ depth ∈ (signed 2).printedDepths, depth ≤ Rule.limit) := by
  have h : ofString (signedSource 2) = .ok (signed 2) :=
    ofString_signedSource_eq_ok_iff.mpr ⟨by decide, rfl⟩
  exact ⟨h, reads_again_iff h⟩

/-- Many signs are read, and their text is not. -/
theorem signed_not_read_again :
    ofString (signedSource 126) = .ok (signed 126) ∧
      ∀ p, ofString (signed 126).text ≠ .ok p := by
  constructor
  · exact ofString_signedSource_eq_ok_iff.mpr ⟨by decide, rfl⟩
  · intro p h
    exact absurd (ofString_text_signed_eq_ok_iff.mp h).1 (by decide)

end Program

end MiniPascal
