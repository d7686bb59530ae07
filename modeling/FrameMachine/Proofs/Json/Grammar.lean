import FrameMachine.Json
import Mathlib.Data.List.Basic
import Mathlib.Data.List.Induction

/-!
# The grammar of blanks, numbers and strings

The phrases that a JSON value is made of, each as a relation between what it stands for and its
text. A string has its surrogates in pairs. Numbers and strings are read for what they stand for, in
front of any text that does not go on with them. A number in decimal and a name without special
characters are texts of the grammar as they stand.
-/
namespace FrameMachine.Json

variable {n : Number} {c : Char} {cs blanks text digits whole fraction rest acc : List Char}
  {exponent : Option Int} {fractionText exponentText : List Char}

theorem bind_of_ok {α β : Type} {x : Except Refusal α} {a : α} (h : x = .ok a)
    (f : α → Except Refusal β) : (x >>= f) = f a := by
  rw [h]
  rfl

def AllBlank (blanks : List Char) : Prop := ∀ c ∈ blanks, isBlank c = true

instance (blanks : List Char) : Decidable (AllBlank blanks) :=
  List.decidableBAll (isBlank · = true) blanks

theorem allBlank_nil : AllBlank [] := nofun

theorem AllBlank.skipBlank_append (blank : AllBlank blanks) :
    skipBlank (blanks ++ rest) = skipBlank rest := by
  rw [skipBlank, skipBlank, List.dropWhile_append_of_pos blank]

theorem skipBlank_cons (solid : isBlank c = false) : skipBlank (c :: rest) = c :: rest := by
  rw [skipBlank, List.dropWhile_cons, solid, if_neg Bool.false_ne_true]

theorem AllBlank.skipBlank (blank : AllBlank blanks) (solid : isBlank c = false) :
    skipBlank (blanks ++ c :: rest) = c :: rest := by
  rw [blank.skipBlank_append, skipBlank_cons solid]

theorem AllBlank.expectChar (blank : AllBlank blanks) (solid : isBlank c = false) :
    expectChar c (blanks ++ c :: rest) = .ok rest := by
  rw [Json.expectChar, blank.skipBlank solid]
  exact if_pos rfl

def Digits (digits : List Char) : Prop := digits ≠ [] ∧ ∀ c ∈ digits, c.isDigit = true

/-- The digits of a whole number: none but a zero alone begins with one. -/
def Whole (digits : List Char) : Prop := Digits digits ∧ ∀ rest, digits = '0' :: rest → rest = []

inductive FractionText : List Char → List Char → Prop where
  | absent : FractionText [] []
  | present {digits : List Char} (h : Digits digits) : FractionText digits ('.' :: digits)

/-- The sign in front of a power, and whether it makes the power negative. -/
inductive PowerSign : Bool → List Char → Prop where
  | absent : PowerSign false []
  | plus : PowerSign false ['+']
  | minus : PowerSign true ['-']

inductive ExponentText : Option Int → List Char → Prop where
  | absent : ExponentText none []
  | present {mark : Char} {negative : Bool} {sign digits : List Char}
      (hmark : mark = 'e' ∨ mark = 'E') (hsign : PowerSign negative sign) (h : Digits digits) :
      ExponentText (some (if negative then - (valueOf digits : Int) else valueOf digits))
        (mark :: (sign ++ digits))

inductive NumberText : Number → List Char → Prop where
  | mk {negative : Bool} {whole fraction fractionText exponentText : List Char}
      {exponent : Option Int} (hwhole : Whole whole) (hfraction : FractionText fraction fractionText)
      (hexponent : ExponentText exponent exponentText) :
      NumberText ⟨negative, whole, fraction, exponent⟩
        ((if negative then ['-'] else []) ++ (whole ++ (fractionText ++ exponentText)))

def EndsNumber (rest : List Char) : Prop :=
  ∀ c, rest.head? = some c → c.isDigit = false ∧ c ≠ '.' ∧ c ≠ 'e' ∧ c ≠ 'E'

/-- Blanks and a sign after them end a number, as long as the sign is none of a number's own. -/
theorem AllBlank.endsNumber (blank : AllBlank blanks)
    (ends : c.isDigit = false ∧ c ≠ '.' ∧ c ≠ 'e' ∧ c ≠ 'E') : EndsNumber (blanks ++ c :: rest) := by
  intro d hd
  cases blanks with
  | nil =>
    obtain rfl := Option.some.inj hd
    exact ends
  | cons b blanks =>
    obtain rfl := Option.some.inj hd
    have hb := blank b List.mem_cons_self
    simp only [isBlank, Bool.or_eq_true, beq_iff_eq] at hb
    rcases hb with ((rfl | rfl) | rfl) | rfl <;> decide

def EndsDigits (rest : List Char) : Prop := ∀ c, rest.head? = some c → c.isDigit = false

theorem EndsNumber.endsDigits (ends : EndsNumber rest) : EndsDigits rest :=
  fun c hc => (ends c hc).1

theorem EndsDigits.cons (other : c.isDigit = false) : EndsDigits (c :: rest) := by
  intro d hd
  obtain rfl := Option.some.inj hd
  exact other

theorem Digits.read (h : Digits digits) (ends : EndsDigits rest) :
    readDigits (digits ++ rest) = .ok (digits, rest) := by
  have head : rest.takeWhile Char.isDigit = [] ∧ rest.dropWhile Char.isDigit = rest := by
    cases rest with
    | nil => exact ⟨rfl, rfl⟩
    | cons c rest => simp [ends c rfl]
  obtain ⟨c, tail, rfl⟩ := List.exists_cons_of_ne_nil h.1
  rw [readDigits, List.takeWhile_append_of_pos h.2, List.dropWhile_append_of_pos h.2, head.1, head.2,
    List.append_nil]

theorem Whole.read (h : Whole whole) (ends : EndsDigits rest) :
    readWhole (whole ++ rest) = .ok (whole, rest) := by
  rw [readWhole, bind_of_ok (h.1.read ends)]
  dsimp only
  split
  next second others => cases h.2 _ rfl
  next => rfl

theorem Digits.exists_cons (h : Digits digits) :
    ∃ c tail, digits = c :: tail ∧ c.isDigit = true := by
  obtain ⟨c, tail, rfl⟩ := List.exists_cons_of_ne_nil h.1
  exact ⟨c, tail, rfl, h.2 c List.mem_cons_self⟩

theorem Digits.readSign (h : Digits digits) (rest : List Char) :
    readSign (digits ++ rest) = (false, digits ++ rest) := by
  obtain ⟨c, tail, rfl, digit⟩ := h.exists_cons
  have hc : c ≠ '-' := by
    rintro rfl
    exact absurd digit (by decide)
  rw [List.cons_append, readSign.eq_2]
  rintro s ⟨⟩
  exact hc rfl

theorem FractionText.read (h : FractionText fraction text) (ends : EndsDigits rest)
    (point : rest.head? ≠ some '.') : readFraction (text ++ rest) = .ok (fraction, rest) := by
  cases h with
  | absent =>
    rw [List.nil_append, readFraction.eq_2]
    rintro s rfl
    exact point rfl
  | present h => exact h.read ends

theorem readPower_of_digits (h : Digits digits) (ends : EndsDigits rest) (negative : Bool) :
    readPower negative (digits ++ rest) =
      .ok (some (if negative then - (valueOf digits : Int) else valueOf digits), rest) := by
  rw [readPower, bind_of_ok (h.read ends)]
  rfl

theorem EndsNumber.readExponent (ends : EndsNumber rest) :
    readExponent rest = .ok (none, rest) := by
  unfold Json.readExponent
  split
  case h_7 => rfl
  all_goals
    first
    | exact absurd rfl (ends 'e' rfl).2.2.1
    | exact absurd rfl (ends 'E' rfl).2.2.2

theorem readExponent_of_digits {mark : Char} (hmark : mark = 'e' ∨ mark = 'E')
    (h : Digits digits) (rest : List Char) :
    readExponent (mark :: (digits ++ rest)) = readPower false (digits ++ rest) := by
  obtain ⟨d, tail, rfl, digit⟩ := h.exists_cons
  have minus : d ≠ '-' := by
    rintro rfl
    exact absurd digit (by decide)
  have plus : d ≠ '+' := by
    rintro rfl
    exact absurd digit (by decide)
  rw [List.cons_append]
  rcases hmark with rfl | rfl <;> rw [readExponent]
  all_goals
    rintro s ⟨⟩
    first
    | exact minus rfl
    | exact plus rfl

theorem ExponentText.read (h : ExponentText exponent text) (ends : EndsNumber rest) :
    readExponent (text ++ rest) = .ok (exponent, rest) := by
  cases h with
  | absent => exact ends.readExponent
  | present hmark hsign h =>
    have power := readPower_of_digits h ends.endsDigits
    cases hsign with
    | absent =>
      rw [List.nil_append, List.cons_append, readExponent_of_digits hmark h]
      exact power false
    | plus => rcases hmark with rfl | rfl <;> exact power false
    | minus => rcases hmark with rfl | rfl <;> exact power true

theorem ExponentText.endsDigits (h : ExponentText exponent text) (ends : EndsNumber rest) :
    EndsDigits (text ++ rest) ∧ (text ++ rest).head? ≠ some '.' := by
  cases h with
  | absent => exact ⟨ends.endsDigits, fun point => (ends '.' point).2.1 rfl⟩
  | present hmark => rcases hmark with rfl | rfl <;> exact ⟨EndsDigits.cons (by decide), by simp⟩

theorem FractionText.endsDigits (h : FractionText fraction text) (ends : EndsDigits rest) :
    EndsDigits (text ++ rest) := by
  cases h with
  | absent => exact ends
  | present => exact EndsDigits.cons (by decide)

theorem NumberText.scan (h : NumberText n text) (ends : EndsNumber rest) :
    scanNumber (text ++ rest) = .ok (n, rest) := by
  obtain @⟨negative, whole, fraction, fractionText, exponentText, exponent, hwhole, hfraction,
    hexponent⟩ := h
  obtain ⟨afterFraction, point⟩ := hexponent.endsDigits ends
  have sign : readSign ((if negative then ['-'] else []) ++
      (whole ++ (fractionText ++ (exponentText ++ rest)))) =
      (negative, whole ++ (fractionText ++ (exponentText ++ rest))) := by
    cases negative with
    | false => exact hwhole.1.readSign _
    | true => rfl
  simp only [List.append_assoc]
  rw [scanNumber, sign]
  dsimp only
  rw [bind_of_ok (hwhole.read (hfraction.endsDigits afterFraction))]
  dsimp only
  rw [bind_of_ok (hfraction.read afterFraction point)]
  dsimp only
  rw [bind_of_ok (hexponent.read ends)]
  rfl

theorem NumberText.read (h : NumberText n text) (finite : n.isInfinite = false)
    (ends : EndsNumber rest) : readNumber (text ++ rest) = .ok (n, rest) := by
  rw [readNumber, bind_of_ok (h.scan ends)]
  dsimp only
  rw [finite, if_neg Bool.false_ne_true]
  rfl

theorem NumberText.skip (h : NumberText n text) (ends : EndsNumber rest) :
    skipNumber (text ++ rest) = .ok rest := by
  rw [skipNumber, h.scan ends]

theorem unit?_append {unit : Nat} (h : unit? digits = some (unit, [])) (rest : List Char) :
    unit? (digits ++ rest) = some (unit, rest) := by
  unfold unit? at h
  split at h
  next a b c d tail =>
    split at h
    next ha hb hc hd =>
      obtain ⟨rfl, rfl⟩ := Prod.mk.inj (Option.some.inj h)
      simp only [List.cons_append, List.nil_append, unit?, ha, hb, hc, hd]
    next => cases h
  next => cases h

inductive CharacterText : Char → List Char → Prop where
  | plain {c : Char} (quote : c ≠ '"') (backslash : c ≠ '\\') (control : ¬ c < ' ') :
      CharacterText c [c]
  | short {letter c : Char} (h : simpleEscape? letter = some c) : CharacterText c ['\\', letter]
  | unit {digits : List Char} {unit : Nat} (h : unit? digits = some (unit, []))
      (lead : ¬ IsLead unit) (trail : ¬ IsTrail unit) :
      CharacterText (Char.ofNat unit) ('\\' :: 'u' :: digits)
  | pair {digits digits' : List Char} {lead trail : Nat} (first : unit? digits = some (lead, []))
      (second : unit? digits' = some (trail, [])) (hlead : IsLead lead) (htrail : IsTrail trail) :
      CharacterText (Char.ofNat ((lead - 0xD800) * 0x400 + (trail - 0xDC00) + 0x10000))
        ('\\' :: 'u' :: (digits ++ '\\' :: 'u' :: digits'))

inductive StringText : List Char → List Char → Prop where
  | nil : StringText [] []
  | cons {c : Char} {cs first text : List Char} (head : CharacterText c first)
      (tail : StringText cs text) : StringText (c :: cs) (first ++ text)

theorem readString_of_escape {s : List Char} (h : readEscape s = .ok (c, rest)) (acc : List Char) :
    readString acc ('\\' :: s) = readString (c :: acc) rest := by
  rw [readString, if_neg (by decide), if_pos rfl]
  split
  next read =>
    cases h.symm.trans read
    rfl
  next failed => cases h.symm.trans failed

theorem skipString_of_escape {s : List Char} (h : skipEscape s = .ok rest) :
    skipString ('\\' :: s) = skipString rest := by
  rw [skipString, if_neg (by decide), if_pos rfl]
  split
  next skipped =>
    cases h.symm.trans skipped
    rfl
  next failed => cases h.symm.trans failed

theorem readUnit_append {unit : Nat} (h : unit? digits = some (unit, [])) (rest : List Char) :
    readUnit (digits ++ rest) = .ok (unit, rest) := by
  rw [readUnit, unit?_append h]

theorem CharacterText.readString (h : CharacterText c text) (acc rest : List Char) :
    readString acc (text ++ rest) = readString (c :: acc) rest := by
  cases h with
  | plain quote backslash control =>
    rw [List.singleton_append, Json.readString, if_neg quote, if_neg backslash, if_neg control]
  | @short letter c h =>
    have other : letter ≠ 'u' := by
      rintro rfl
      cases h
    rw [List.cons_append, List.singleton_append]
    apply readString_of_escape
    rw [readEscape, if_neg other, h]
  | unit h lead trail =>
    rw [List.cons_append, List.cons_append]
    apply readString_of_escape
    rw [readEscape, if_pos rfl, readCodePoint, bind_of_ok (readUnit_append h rest)]
    dsimp only
    rw [if_neg trail, if_neg lead]
    rfl
  | @pair digits digits' lead trail first second hlead htrail =>
    have alone : ¬ IsTrail lead := fun both => absurd (Nat.le_trans both.1 hlead.2) (by decide)
    have mark : expect ['\\', 'u'] ('\\' :: 'u' :: (digits' ++ rest)) = .ok (digits' ++ rest) := rfl
    rw [List.cons_append, List.cons_append, List.append_assoc, List.cons_append, List.cons_append]
    apply readString_of_escape
    rw [readEscape, if_pos rfl, readCodePoint, bind_of_ok (readUnit_append first _)]
    dsimp only
    rw [if_neg alone, if_pos hlead, readTrail, bind_of_ok mark,
      bind_of_ok (readUnit_append second rest)]
    dsimp only
    rw [if_pos htrail]
    rfl

theorem CharacterText.skipString (h : CharacterText c text) (rest : List Char) :
    skipString (text ++ rest) = skipString rest := by
  have unit : ∀ {unit digits} (rest : List Char), unit? digits = some (unit, []) →
      Json.skipString ('\\' :: 'u' :: (digits ++ rest)) = Json.skipString rest := by
    intro unit digits rest h
    apply skipString_of_escape
    rw [skipEscape, if_pos rfl, readUnit_append h]
    rfl
  cases h with
  | plain quote backslash control =>
    rw [List.singleton_append, Json.skipString, if_neg quote, if_neg backslash, if_neg control]
  | @short letter c h =>
    have other : letter ≠ 'u' := by
      rintro rfl
      cases h
    rw [List.cons_append, List.singleton_append]
    apply skipString_of_escape
    rw [skipEscape, if_neg other, h, if_pos Option.isSome_some]
  | unit h => exact unit rest h
  | pair first second =>
    rw [List.cons_append, List.cons_append, List.append_assoc, unit _ first]
    exact unit rest second

theorem StringText.readString (h : StringText cs text) (acc rest : List Char) :
    readString acc (text ++ '"' :: rest) = .ok (acc.reverse ++ cs, rest) := by
  induction h generalizing acc with
  | nil => rw [List.nil_append, Json.readString, if_pos rfl, List.append_nil]
  | cons head tail ih =>
    rw [List.append_assoc, head.readString, ih, List.reverse_cons, List.append_assoc,
      List.singleton_append]

theorem StringText.skipString (h : StringText cs text) (rest : List Char) :
    skipString (text ++ '"' :: rest) = .ok rest := by
  induction h with
  | nil => rw [List.nil_append, Json.skipString, if_pos rfl]
  | cons head tail ih => rw [List.append_assoc, head.skipString, ih]

end FrameMachine.Json

namespace FrameMachine.Json

variable {n : Nat} {c : Char} {digits name : List Char}

theorem valueOf_toDigits (n : Nat) : valueOf (Nat.toDigits 10 n) = n := by
  have step : (fun (value : Nat) (c : Char) => value * 10 + digitValue c) =
      fun value c => 10 * value + (c.toNat - '0'.toNat) := by
    funext value c
    rw [Nat.mul_comm, digitValue]
  rw [valueOf, step]
  exact Nat.ofDigitChars_ten_toDigits

/-- Only zero is written with a zero in front. -/
theorem head?_toDigits_ne_zero (positive : 0 < n) : (Nat.toDigits 10 n).head? ≠ some '0' := by
  induction n using Nat.strongRecOn with
  | ind n ih =>
    rcases Nat.lt_or_ge n 10 with small | large
    · rw [Nat.toDigits_of_lt_base small, List.head?_cons, ne_eq, Option.some.injEq,
        Nat.digitChar_eq_zero]
      omega
    · rw [Nat.toDigits_of_base_le (by decide) large, List.head?_append_of_ne_nil _ Nat.toDigits_ne_nil]
      exact ih (n / 10) (by omega) (by omega)

theorem isDigit_of_mem_toDigits (h : c ∈ Nat.toDigits 10 n) : c.isDigit = true :=
  Nat.isDigit_of_mem_toDigits (by decide) (by decide) h

theorem digitChar_digitValue (digit : c.isDigit = true) :
    digitValue c < 10 ∧ (digitValue c).digitChar = c := by
  have chars : ∀ d < 10, d.digitChar = Char.ofNat (48 + d) := by decide
  simp only [Char.isDigit, Bool.and_eq_true, decide_eq_true_eq] at digit
  have zero : '0'.toNat = 48 := rfl
  have lower : 48 ≤ c.toNat := UInt32.le_iff_toNat_le.mp digit.1
  have upper : c.toNat ≤ 57 := UInt32.le_iff_toNat_le.mp digit.2
  have small : digitValue c < 10 := by
    rw [digitValue, zero]
    omega
  refine ⟨small, ?_⟩
  rw [chars _ small, digitValue, zero, Nat.add_sub_cancel' lower, Char.ofNat_toNat]

theorem valueOf_append_singleton (digits : List Char) (c : Char) :
    valueOf (digits ++ [c]) = 10 * valueOf digits + digitValue c := by
  rw [valueOf, List.foldl_append, Nat.mul_comm]
  rfl

theorem whole_toDigits (n : Nat) : Whole (Nat.toDigits 10 n) := by
  refine ⟨⟨Nat.toDigits_ne_nil, fun _ => isDigit_of_mem_toDigits⟩, ?_⟩
  intro rest split
  rcases Nat.eq_zero_or_pos n with rfl | positive
  · obtain ⟨-, rfl⟩ := List.cons.inj split
    rfl
  · have head := head?_toDigits_ne_zero positive
    rw [split] at head
    exact absurd rfl head

theorem Whole.numberText (h : Whole digits) : NumberText ⟨false, digits, [], none⟩ digits := by
  have text : NumberText ⟨false, digits, [], none⟩ ([] ++ (digits ++ ([] ++ []))) :=
    .mk h .absent .absent
  rwa [List.nil_append, List.append_nil, List.append_nil] at text

/-- The digits of a whole number are those that its value is written with. -/
theorem Whole.toDigits_valueOf (h : Whole digits) : Nat.toDigits 10 (valueOf digits) = digits := by
  induction digits using List.reverseRecOn with
  | nil => exact absurd rfl h.1.1
  | append_singleton front c ih =>
    obtain ⟨small, char⟩ := digitChar_digitValue (h.1.2 c (by simp))
    rw [valueOf_append_singleton]
    rcases eq_or_ne front [] with rfl | filled
    · have zero : 10 * valueOf [] + digitValue c = digitValue c := Nat.zero_add _
      rw [zero, Nat.toDigits_of_lt_base small, char, List.nil_append]
    have whole : Whole front := by
      refine ⟨⟨filled, fun d hd => h.1.2 d (List.mem_append_left _ hd)⟩, ?_⟩
      rintro rest rfl
      exact absurd (h.2 _ rfl) (by simp)
    have positive : 0 < valueOf front := by
      apply Nat.pos_of_ne_zero
      intro zero
      have alone := ih whole
      rw [zero, Nat.toDigits_zero] at alone
      rw [← alone] at h
      exact absurd (h.2 _ rfl) (by simp)
    rw [← Nat.toDigits_append_toDigits (by decide) positive small, ih whole,
      Nat.toDigits_of_lt_base small, char]

theorem NumberText.eq_of_toDigits {number : Number} (h : NumberText number (Nat.toDigits 10 n)) :
    number = ⟨false, Nat.toDigits 10 n, [], none⟩ := by
  have ends : EndsNumber [] := nofun
  have same := (h.scan ends).symm.trans ((whole_toDigits n).numberText.scan ends)
  exact (Prod.mk.inj (Except.ok.inj same)).1

theorem NumberText.eq_whole {text whole : List Char} (h : NumberText ⟨false, whole, [], none⟩ text) :
    text = whole ∧ Whole whole := by
  obtain ⟨hwhole, hfraction, hexponent⟩ := h
  cases hexponent
  cases hfraction with
  | absent => exact ⟨by simp, hwhole⟩
  | present h => exact absurd rfl h.1

def valueAfter (value : Nat) (digits : List Char) : Nat :=
  digits.foldl (fun n c => n * 10 + digitValue c) value

theorem le_valueAfter (value : Nat) (digits : List Char) : value ≤ valueAfter value digits := by
  induction digits generalizing value with
  | nil => exact Nat.le_refl value
  | cons c digits ih => exact Nat.le_trans (by omega) (ih (value * 10 + digitValue c))

theorem takeLeading_of_lt {value : Nat} (h : valueAfter value digits < UInt64.size) :
    takeLeading value digits = (valueAfter value digits, 0) := by
  induction digits generalizing value with
  | nil => rfl
  | cons c digits ih =>
    have here := Nat.lt_of_le_of_lt (le_valueAfter (value * 10 + digitValue c) digits) h
    rw [takeLeading, if_pos here]
    exact ih h

theorem roundTo53_of_lt (h : n < 1 <<< 53) : roundTo53 n = n := by
  have log : n.log2 - 52 = 0 := by
    rcases Nat.eq_zero_or_pos n with rfl | positive
    · decide
    · have bits : n.log2 < 53 :=
        (Nat.log2_lt (Nat.ne_of_gt positive)).mpr (Nat.lt_of_lt_of_eq h (by decide))
      omega
  unfold roundTo53
  rw [log]
  simp [Nat.mod_one]

theorem isInfinite_toDigits (h : n < UInt16.size) :
    Number.isInfinite ⟨false, Nat.toDigits 10 n, [], none⟩ = false := by
  have whole : valueAfter 0 (Nat.toDigits 10 n) = n := valueOf_toDigits n
  have leading : takeLeading 0 (Nat.toDigits 10 n) = (n, 0) := by
    rw [takeLeading_of_lt (by rw [whole]; exact Nat.lt_trans h (by decide)), whole]
  have finite : ¬ 1 <<< 1024 - 1 <<< 970 ≤ roundTo53 n * roundTo53 (Nat.pow 10 0) := by
    have one : roundTo53 (Nat.pow 10 0) = 1 := by decide
    have large : UInt16.size ≤ 1 <<< 1024 - 1 <<< 970 := by decide
    rw [roundTo53_of_lt (Nat.lt_trans h (by decide)), one]
    omega
  simp only [Number.isInfinite, leading, takeLeading]
  split
  · rfl
  · exact decide_eq_false finite

/-- The name can stand between quotes as it is. -/
def Plain (name : List Char) : Prop := ∀ c ∈ name, c ≠ '"' ∧ c ≠ '\\' ∧ ¬ c < ' '

instance (name : List Char) : Decidable (Plain name) :=
  List.decidableBAll (fun c => c ≠ '"' ∧ c ≠ '\\' ∧ ¬ c < ' ') name

theorem Plain.stringText (plain : Plain name) : StringText name name := by
  induction name with
  | nil => exact .nil
  | cons c name ih =>
    obtain ⟨quote, backslash, control⟩ := plain c List.mem_cons_self
    exact .cons (.plain quote backslash control) (ih fun d hd => plain d (List.mem_cons_of_mem _ hd))

end FrameMachine.Json
