import FrameMachine.Proofs.Text.Numerals
import FrameMachine.Text
import Mathlib.Data.List.DropRight

/-!
# Which texts are addresses

The grammar of addresses over all texts: what is left between the blanks is a hexadecimal numeral
after `0x`, or else a decimal one. A text outside the grammar is refused for the first of its
defects.
-/
namespace FrameMachine

namespace Blank

variable {s t lead trail : List Char} {c : Char}

/-- The code points with the property `White_Space`. -/
def whiteSpace : List Nat :=
  [0x9, 0xA, 0xB, 0xC, 0xD, 0x20, 0x85, 0xA0, 0x1680, 0x2000, 0x2001, 0x2002, 0x2003, 0x2004,
    0x2005, 0x2006, 0x2007, 0x2008, 0x2009, 0x200A, 0x2028, 0x2029, 0x202F, 0x205F, 0x3000]

theorem isBlank_iff : isBlank c = true ↔ c.toNat ∈ whiteSpace := by
  simp only [isBlank, whiteSpace, Bool.or_eq_true, Bool.and_eq_true, beq_iff_eq, decide_eq_true_eq,
    List.mem_cons, List.not_mem_nil, or_false]
  omega

def White (s : List Char) : Prop := ∀ c ∈ s, c.toNat ∈ whiteSpace

instance (s : List Char) : Decidable (White s) :=
  List.decidableBAll (fun c : Char => c.toNat ∈ whiteSpace) s

/-- The text without the blanks around it. -/
structure Trims (s t : List Char) : Prop where
  split : ∃ lead trail, White lead ∧ White trail ∧ s = lead ++ t ++ trail
  head : ∀ c, t.head? = some c → c.toNat ∉ whiteSpace
  last : ∀ c, t.getLast? = some c → c.toNat ∉ whiteSpace

theorem White.all (h : White s) : ∀ c ∈ s, isBlank c = true :=
  fun c mem => isBlank_iff.mpr (h c mem)

theorem White.reverse (h : White s) : White s.reverse :=
  fun c mem => h c (List.mem_reverse.mp mem)

theorem dropWhile_white_append (white : White lead)
    (head : ∀ c, t.head? = some c → c.toNat ∉ whiteSpace) : (lead ++ t).dropWhile isBlank = t := by
  rw [List.dropWhile_append_of_pos white.all]
  cases t with
  | nil => rfl
  | cons c t => exact List.dropWhile_cons_of_neg (mt isBlank_iff.mp (head c rfl))

theorem Trims.trim_eq (h : Trims s t) : trim s = t := by
  obtain ⟨⟨lead, trail, before, after, rfl⟩, head, last⟩ := h
  have front : ((lead ++ t ++ trail).dropWhile isBlank).reverse.dropWhile isBlank = t.reverse := by
    by_cases empty : t = []
    · subst empty
      have all : White (lead ++ [] ++ trail) := by
        intro c mem
        rw [List.append_nil] at mem
        exact (List.mem_append.mp mem).elim (before c) (after c)
      rw [List.dropWhile_eq_nil_iff.mpr all.all]
      rfl
    · rw [List.append_assoc, dropWhile_white_append before, List.reverse_append,
        dropWhile_white_append after.reverse]
      · intro c hc
        exact last c (by rwa [List.head?_reverse] at hc)
      · intro c hc
        exact head c (by rwa [List.head?_append_of_ne_nil _ empty] at hc)
  rw [trim, front, List.reverse_reverse]

theorem trims_trim (s : List Char) : Trims s (trim s) := by
  have solid {s : List Char} {c : Char} (h : (s.dropWhile isBlank).head? = some c) :
      c.toNat ∉ whiteSpace := by
    have first := List.head?_dropWhile_not isBlank s
    rw [h] at first
    exact mt isBlank_iff.mpr (Bool.eq_false_iff.mp first)
  let rest := s.dropWhile isBlank
  have whole : trim s ++ rest.rtakeWhile isBlank = rest := List.rdropWhile_append_rtakeWhile
  constructor
  · refine ⟨s.takeWhile isBlank, rest.rtakeWhile isBlank, ?_, ?_, ?_⟩
    · exact fun c mem => isBlank_iff.mp (List.mem_takeWhile_imp mem)
    · exact fun c mem => isBlank_iff.mp (List.mem_rtakeWhile_imp mem)
    · rw [List.append_assoc, whole]
      exact List.takeWhile_append_dropWhile.symm
  · intro c hc
    have filled : trim s ≠ [] := by
      intro empty
      rw [empty] at hc
      cases hc
    have front : rest.head? = (trim s).head? :=
      (congrArg List.head? whole).symm.trans (List.head?_append_of_ne_nil _ filled)
    exact solid (front.trans hc)
  · intro c hc
    rw [trim, List.getLast?_reverse] at hc
    exact solid hc

theorem Trims.of_solid (before : White lead) (after : White trail)
    (solid : ∀ c ∈ t, c.toNat ∉ whiteSpace) : Trims (lead ++ t ++ trail) t :=
  ⟨⟨lead, trail, before, after, rfl⟩, fun c hc => solid c (List.mem_of_mem_head? hc),
    fun c hc => solid c (List.mem_of_mem_getLast? hc)⟩

end Blank

namespace Numeral

variable {base n d : Nat} {c : Char} {cs : List Char}

theorem Denotes.isNumeral (small : base ≤ 16) (h : Denotes base cs n) (filled : cs ≠ []) :
    IsNumeral base cs n := by
  have unsigned : digitsOf cs = cs := by
    unfold digitsOf
    split
    · obtain ⟨d, digit⟩ := h.isDigit_of_mem List.mem_cons_self
      exact absurd digit (not_isDigit_of_lt small (by decide))
    · rfl
  constructor
  · rwa [unsigned]
  · rwa [unsigned]

theorem IsDigit.solid (small : base ≤ 16) (h : IsDigit base c d) : c.toNat ∉ Blank.whiteSpace := by
  obtain ⟨-, coded⟩ := (isDigit_iff small).mp h
  simp only [Coded, Blank.whiteSpace, List.mem_cons, List.not_mem_nil, or_false] at coded ⊢
  omega

theorem Denotes.solid (small : base ≤ 16) (h : Denotes base cs n) :
    ∀ c ∈ cs, c.toNat ∉ Blank.whiteSpace := by
  intro c mem
  obtain ⟨d, digit⟩ := h.isDigit_of_mem mem
  exact digit.solid small

end Numeral

namespace Address

open Numeral (IsNumeral Overflows Denotes Reading)

variable {text : String} {t body lead trail digits : List Char} {radix : Nat} {n : UInt32}

/-- The radix of a text without blanks around it, and what is left to be read in that radix. -/
inductive Body : List Char → Nat → List Char → Prop where
  | hexadecimal (body : List Char) : Body ('0' :: 'x' :: body) 16 body
  | decimal {t : List Char} : ¬ ['0', 'x'] <+: t → Body t 10 t

theorem exists_body (t : List Char) : ∃ radix body, Body t radix body := by
  by_cases marked : ['0', 'x'] <+: t
  · obtain ⟨body, rfl⟩ := marked
    exact ⟨16, body, .hexadecimal body⟩
  · exact ⟨10, t, .decimal marked⟩

theorem Body.radix_le (h : Body t radix body) : radix ≤ 16 ∧ 0 < radix := by
  cases h <;> decide

theorem Body.readTrimmed_eq (h : Body t radix body) :
    readTrimmed t = Numeral.read radix UInt32.size body := by
  cases h with
  | hexadecimal => rfl
  | decimal unmarked =>
    unfold readTrimmed
    split
    · exact absurd ⟨_, rfl⟩ unmarked
    · rfl

theorem Body.reading (h : Body t radix body) : Reading radix UInt32.size body (readTrimmed t) := by
  rw [h.readTrimmed_eq]
  exact Numeral.reading_read h.radix_le.1 h.radix_le.2 (by decide) body

theorem parse_eq_ok_iff (trims : Blank.Trims text.toList t) (h : Body t radix body) :
    parse text = .ok n ↔ IsNumeral radix body n.toNat := by
  obtain ⟨small, pos⟩ := h.radix_le
  have reading := h.reading
  rw [parse, trims.trim_eq]
  generalize readTrimmed t = result at reading
  constructor
  · intro read
    cases reading with
    | accepted numeral lt =>
      obtain rfl := Except.ok.inj read
      rwa [UInt32.toNat_ofNat_of_lt' lt]
    | empty | tooLarge | invalidDigit => cases read
  · intro numeral
    have lt : n.toNat < UInt32.size := n.toNat_lt
    obtain rfl := reading.unique small pos (by decide) (.accepted numeral lt)
    simp

theorem parse_eq_error_iff {e : Invalid} (trims : Blank.Trims text.toList t)
    (h : Body t radix body) : parse text = .error e ↔
      e.text = text ∧ Reading radix UInt32.size body (.error e.defect) := by
  obtain ⟨small, pos⟩ := h.radix_le
  have reading := h.reading
  rw [parse, trims.trim_eq]
  generalize readTrimmed t = result at reading
  constructor
  · intro read
    cases result with
    | ok m => cases read
    | error defect =>
      obtain rfl := Except.error.inj read
      exact ⟨rfl, reading⟩
  · rintro ⟨rfl, refused⟩
    obtain rfl := reading.unique small pos (by decide) refused
    rfl

theorem Invalid.message_eq (e : Invalid) :
    e.message = "invalid address '" ++ e.text ++ "': " ++ e.defect.message := rfl

theorem Invalid.message_eq_iff {e : Invalid} {d : Numeral.Defect} :
    e.message = "invalid address '" ++ e.text ++ "': " ++ d.message ↔ e.defect = d := by
  rw [e.message_eq]
  constructor
  · intro same
    have reasons : e.defect.message = d.message := by simpa using same
    generalize e.defect = defect at reasons
    cases defect <;> cases d <;> first | rfl | (revert reasons; decide)
  · rintro rfl
    rfl

theorem parse_eq_empty_iff (trims : Blank.Trims text.toList t) (h : Body t radix body) :
    parse text = .error ⟨text, .empty⟩ ↔ body = [] := by
  rw [parse_eq_error_iff trims h]
  constructor
  · rintro ⟨-, ⟨⟩⟩
    assumption
  · exact fun empty => ⟨rfl, .empty empty⟩

theorem parse_eq_tooLarge_iff (trims : Blank.Trims text.toList t) (h : Body t radix body) :
    parse text = .error ⟨text, .tooLarge⟩ ↔ Overflows radix UInt32.size body := by
  rw [parse_eq_error_iff trims h]
  constructor
  · rintro ⟨-, ⟨⟩⟩
    assumption
  · exact fun exceeds => ⟨rfl, .tooLarge exceeds⟩

theorem parse_eq_invalidDigit_iff (trims : Blank.Trims text.toList t) (h : Body t radix body) :
    parse text = .error ⟨text, .invalidDigit⟩ ↔ (∀ n : UInt32, ¬ IsNumeral radix body n.toNat) ∧
      body ≠ [] ∧ ¬ Overflows radix UInt32.size body := by
  rw [parse_eq_error_iff trims h]
  constructor
  · rintro ⟨-, ⟨⟩⟩
    rename_i filled none fits
    exact ⟨fun n => none _, filled, fits⟩
  · rintro ⟨none, filled, fits⟩
    refine ⟨rfl, .invalidDigit filled (fun m numeral => ?_) fits⟩
    by_cases small : m < UInt32.size
    · exact none (UInt32.ofNat m) (by rwa [UInt32.toNat_ofNat_of_lt' small])
    · exact fits (numeral.overflows (Nat.le_of_not_lt small))

/-- What is written with digits alone is read whatever blanks are around it. -/
theorem parse_of_denotes (before : Blank.White lead) (after : Blank.White trail)
    (h : Body t radix digits) (filled : digits ≠ []) (value : Denotes radix digits n.toNat) :
    parse (String.ofList (lead ++ t ++ trail)) = .ok n := by
  have solid : ∀ c ∈ t, c.toNat ∉ Blank.whiteSpace := by
    cases h with
    | hexadecimal =>
      intro c mem
      rcases List.mem_cons.mp mem with rfl | mem
      · decide
      rcases List.mem_cons.mp mem with rfl | mem
      · decide
      exact value.solid (by decide) c mem
    | decimal => exact value.solid (by decide)
  have trims : Blank.Trims (String.ofList (lead ++ t ++ trail)).toList t := by
    rw [String.toList_ofList]
    exact .of_solid before after solid
  exact (parse_eq_ok_iff trims h).mpr (value.isNumeral h.radix_le.1 filled)

theorem parse_lowerHex (places : Nat) (n : UInt32) :
    parse ("0x" ++ Numeral.lowerHex places n.toNat) = .ok n := by
  have written : "0x" ++ Numeral.lowerHex places n.toNat =
      String.ofList ([] ++ ('0' :: 'x' :: Numeral.hexDigits places n.toNat) ++ []) := by
    apply String.toList_inj.mp
    simp [Numeral.lowerHex]
  rw [written]
  exact parse_of_denotes nofun nofun (.hexadecimal _) (Numeral.hexDigits_ne_nil _ _)
    (Numeral.denotes_hexDigits _ _)

theorem body_of_denotes (value : Denotes 10 digits n.toNat) : Body digits 10 digits := by
  apply Body.decimal
  rintro ⟨rest, rfl⟩
  obtain ⟨d, digit⟩ := value.isDigit_of_mem (show 'x' ∈ ['0', 'x'] ++ rest by simp)
  obtain ⟨-, coded⟩ := (Numeral.isDigit_iff (by decide)).mp digit
  simp only [Numeral.Coded, Char.reduceToNat] at coded
  omega

/-- A text is an address exactly if a numeral below `2 ^ 32` is left between its blanks. Any other
text is named in full by its error, with a reason that does not depend on what comes after the first
defect. Every address has a text in either radix, with any case of its letters, any number of zeros
in front and any blanks around it. -/
theorem parse_follows_grammar (text : String) :
    (∃ t radix body, Blank.Trims text.toList t ∧ Body t radix body) ∧
    (∀ t radix body, Blank.Trims text.toList t → Body t radix body →
      (∀ n, parse text = .ok n ↔ IsNumeral radix body n.toNat) ∧
      (∀ e, parse text = .error e →
        e.message = "invalid address '" ++ text ++ "': " ++ e.defect.message ∧
        (e.message = "invalid address '" ++ text ++ "': " ++
            "cannot parse integer from empty string" ↔ body = []) ∧
        (e.message = "invalid address '" ++ text ++ "': " ++
            "number too large to fit in target type" ↔ Overflows radix UInt32.size body) ∧
        (e.message = "invalid address '" ++ text ++ "': " ++ "invalid digit found in string" ↔
          body ≠ [] ∧ ¬ Overflows radix UInt32.size body)) ∧
      (parse text = .error ⟨text, .empty⟩ ↔ body = []) ∧
      (parse text = .error ⟨text, .tooLarge⟩ ↔ Overflows radix UInt32.size body) ∧
      (parse text = .error ⟨text, .invalidDigit⟩ ↔ (∀ n : UInt32, ¬ IsNumeral radix body n.toNat) ∧
        body ≠ [] ∧ ¬ Overflows radix UInt32.size body)) ∧
    ∀ (n : UInt32) (zeros : Nat) (lead trail : List Char), Blank.White lead → Blank.White trail →
      parse (String.ofList (lead ++ (List.replicate zeros '0' ++ Nat.toDigits 10 n.toNat) ++ trail))
        = .ok n ∧
      ∀ digits : List Char, digits.map Char.toLower = Nat.toDigits 16 n.toNat →
        parse (String.ofList (lead ++ ('0' :: 'x' :: (List.replicate zeros '0' ++ digits)) ++ trail))
          = .ok n := by
  refine ⟨?_, ?_, ?_⟩
  · obtain ⟨radix, body, h⟩ := exists_body (Blank.trim text.toList)
    exact ⟨_, radix, body, Blank.trims_trim _, h⟩
  · intro t radix body trims h
    refine ⟨fun n => parse_eq_ok_iff trims h, ?_, parse_eq_empty_iff trims h,
      parse_eq_tooLarge_iff trims h, parse_eq_invalidDigit_iff trims h⟩
    rintro ⟨shown, defect⟩ refused
    obtain rfl : text = shown := ((parse_eq_error_iff trims h).mp refused).1.symm
    have told {d : Numeral.Defect} : (Invalid.mk text defect).message =
        "invalid address '" ++ text ++ "': " ++ d.message ↔ parse text = .error ⟨text, d⟩ := by
      rw [Invalid.message_eq_iff (e := ⟨text, defect⟩), refused]
      simp
    refine ⟨rfl, told.trans (parse_eq_empty_iff trims h), told.trans (parse_eq_tooLarge_iff trims h),
      told.trans ((parse_eq_invalidDigit_iff trims h).trans (and_iff_right fun n numeral => ?_))⟩
    rw [(parse_eq_ok_iff trims h).mpr numeral] at refused
    cases refused
  · intro n zeros lead trail before after
    have filled {digits : List Char} (h : digits ≠ []) : List.replicate zeros '0' ++ digits ≠ [] :=
      List.append_ne_nil_of_right_ne_nil _ h
    have decimal := (Numeral.denotes_toDigits (by decide : 2 ≤ 10) n.toNat).padded (by decide) zeros
    refine ⟨parse_of_denotes before after (body_of_denotes decimal) (filled Nat.toDigits_ne_nil)
      decimal, fun digits lowered => ?_⟩
    have written : digits ≠ [] := by
      rintro rfl
      exact Nat.toDigits_ne_nil lowered.symm
    have value : Denotes 16 digits n.toNat := by
      apply Denotes.of_toLower (by decide)
      rw [lowered]
      exact Numeral.denotes_toDigits (by decide) _
    exact parse_of_denotes before after (.hexadecimal _) (filled written)
      (value.padded (by decide) zeros)

/-- A sign after the mark, a bad digit behind one that is too much, and capital letters after zeros
between two wide blanks. -/
theorem signed_cut_and_padded_texts :
    (Blank.Trims " 0x+00fF\t".toList "0x+00fF".toList ∧ Body "0x+00fF".toList 16 "+00fF".toList ∧
      parse " 0x+00fF\t" = .ok 255 ∧ IsNumeral 16 "+00fF".toList 255) ∧
    (Blank.Trims "42949672960x".toList "42949672960x".toList ∧
      Body "42949672960x".toList 10 "42949672960x".toList ∧
      parse "42949672960x" = .error ⟨"42949672960x", .tooLarge⟩ ∧
      Overflows 10 UInt32.size "42949672960x".toList ∧
      Invalid.message ⟨"42949672960x", .tooLarge⟩ =
        "invalid address '42949672960x': number too large to fit in target type") ∧
    (Blank.White "\u2003".toList ∧ "DeadBeef".toList.map Char.toLower = Nat.toDigits 16 0xdeadbeef ∧
      parse "\u20030x00DeadBeef\u2003" = .ok 0xdeadbeef) := by
  refine ⟨?_, ?_, ?_⟩
  · have trims : Blank.Trims " 0x+00fF\t".toList "0x+00fF".toList := Blank.trims_trim _
    have body : Body "0x+00fF".toList 16 "+00fF".toList := .hexadecimal _
    have read : parse " 0x+00fF\t" = .ok 255 := by decide
    obtain ⟨accepted, -⟩ := (parse_follows_grammar " 0x+00fF\t").2.1 _ _ _ trims body
    exact ⟨trims, body, read, (accepted 255).mp read⟩
  · have trims : Blank.Trims "42949672960x".toList "42949672960x".toList := Blank.trims_trim _
    have body : Body "42949672960x".toList 10 "42949672960x".toList := .decimal (by decide)
    have read : parse "42949672960x" = .error ⟨"42949672960x", .tooLarge⟩ := by decide
    obtain ⟨-, texts, -, tooLarge, -⟩ :=
      (parse_follows_grammar "42949672960x").2.1 _ _ _ trims body
    have exceeds := tooLarge.mp read
    obtain ⟨-, -, text, -⟩ := texts _ read
    exact ⟨trims, body, read, exceeds, text.mpr exceeds⟩
  · have white : Blank.White "\u2003".toList := by decide
    have lowered : "DeadBeef".toList.map Char.toLower = Nat.toDigits 16 0xdeadbeef := by decide
    have written := (parse_follows_grammar "").2.2 0xdeadbeef 2 _ _ white white
    exact ⟨white, lowered, written.2 _ lowered⟩

end Address

end FrameMachine
