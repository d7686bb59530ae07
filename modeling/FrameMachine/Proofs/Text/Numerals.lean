import FrameMachine.Text
import Mathlib.Data.List.Forall2
import Mathlib.Data.List.Induction

/-!
# Reading numerals

Which texts are numerals of a base, and what a text that is none is refused for: the digits are read
from the left, and reading ends with the first character that is no digit or with the first digit
that takes the value to the limit. Numbers are read back from the texts that they are written as.
Only ASCII letters have a case here.
-/
namespace FrameMachine

variable {c d : Char} {s t : List Char}

/-- Equal, or the capital and the small form of one ASCII letter. -/
def SameLetter (c d : Char) : Prop :=
  c = d ∨ ∃ k < 26, (c.toNat = 65 + k ∧ d.toNat = 97 + k) ∨ (c.toNat = 97 + k ∧ d.toNat = 65 + k)

def SameLetters (s t : List Char) : Prop := List.Forall₂ SameLetter s t

theorem toNat_toLower (c : Char) :
    c.toLower.toNat = if 65 ≤ c.toNat ∧ c.toNat ≤ 90 then c.toNat + 32 else c.toNat := by
  have capital_iff : c.val ≥ 'A'.val ∧ c.val ≤ 'Z'.val ↔ 65 ≤ c.toNat ∧ c.toNat ≤ 90 :=
    and_congr UInt32.le_iff_toNat_le UInt32.le_iff_toNat_le
  unfold Char.toLower
  by_cases capital : c.val ≥ 'A'.val ∧ c.val ≤ 'Z'.val
  · have bounds := capital_iff.mp capital
    rw [dif_pos capital, if_pos bounds]
    change (c.val + 32).toNat = c.val.toNat + 32
    rw [Char.toNat] at bounds
    rw [UInt32.toNat_add]
    simp only [UInt32.reduceToNat]
    omega
  · rw [dif_neg capital, if_neg (mt capital_iff.mpr capital)]

theorem toLower_eq_toLower_iff : c.toLower = d.toLower ↔ SameLetter c d := by
  rw [← Char.toNat_inj, toNat_toLower, toNat_toLower]
  constructor
  · intro h
    by_cases same : c.toNat = d.toNat
    · exact Or.inl (Char.toNat_inj.mp same)
    · right
      split at h <;> split at h
      · omega
      · exact ⟨c.toNat - 65, by omega, by omega⟩
      · exact ⟨d.toNat - 65, by omega, by omega⟩
      · omega
  · rintro (rfl | ⟨k, hk, ⟨hc, hd⟩ | ⟨hc, hd⟩⟩)
    · rfl
    · rw [if_pos (by omega), if_neg (by omega)]
      omega
    · rw [if_neg (by omega), if_pos (by omega)]
      omega

theorem map_toLower_eq_iff : s.map Char.toLower = t.map Char.toLower ↔ SameLetters s t := by
  rw [SameLetters, ← List.forall₂_eq_eq_eq, List.forall₂_map_left_iff, List.forall₂_map_right_iff]
  simp only [toLower_eq_toLower_iff]

end FrameMachine

namespace FrameMachine.Numeral

/-- The character is the digit `d` of the base, in either case of the letters. -/
structure IsDigit (base : Nat) (c : Char) (d : Nat) : Prop where
  lt : d < base
  shown : c = d.digitChar ∨ c = d.digitChar.toUpper

/-- Digits of the base that come to a value, with none for zero. -/
inductive Denotes (base : Nat) : List Char → Nat → Prop where
  | nil : Denotes base [] 0
  | snoc {cs : List Char} {v : Nat} {c : Char} {d : Nat} :
      Denotes base cs v → IsDigit base c d → Denotes base (cs ++ [c]) (v * base + d)

/-- What comes after one plus sign, or after none. -/
def digitsOf : List Char → List Char
  | '+' :: digits => digits
  | digits => digits

structure IsNumeral (base : Nat) (body : List Char) (n : Nat) : Prop where
  nonempty : digitsOf body ≠ []
  denotes : Denotes base (digitsOf body) n

/-- The leading digits come to the limit already, whatever follows them. -/
def Overflows (base limit : Nat) (body : List Char) : Prop :=
  ∃ front rest v, digitsOf body = front ++ rest ∧ Denotes base front v ∧ limit ≤ v

variable {base limit v n d k : Nat} {c : Char} {cs front body : List Char}

def Coded (code d : Nat) : Prop :=
  code = 48 + d ∧ d < 10 ∨ (code = 87 + d ∨ code = 55 + d) ∧ 10 ≤ d ∧ d < 16

theorem isDigit_iff (small : base ≤ 16) : IsDigit base c d ↔ d < base ∧ Coded c.toNat d := by
  have codes : ∀ d < 16, if d < 10
      then d.digitChar.toNat = 48 + d ∧ d.digitChar.toUpper.toNat = 48 + d
      else d.digitChar.toNat = 87 + d ∧ d.digitChar.toUpper.toNat = 55 + d := by decide
  constructor
  · rintro ⟨lt, shown⟩
    have code := codes d (by omega)
    refine ⟨lt, ?_⟩
    unfold Coded
    by_cases few : d < 10
    · rw [if_pos few] at code
      rcases shown with rfl | rfl <;> omega
    · rw [if_neg few] at code
      rcases shown with rfl | rfl <;> omega
  · rintro ⟨lt, coded⟩
    have code := codes d (by omega)
    refine ⟨lt, ?_⟩
    rcases coded with ⟨here, few⟩ | ⟨here | here, many, -⟩
    · rw [if_pos few] at code
      exact Or.inl (Char.toNat_inj.mp (here.trans code.1.symm))
    · rw [if_neg (Nat.not_lt.mpr many)] at code
      exact Or.inl (Char.toNat_inj.mp (here.trans code.1.symm))
    · rw [if_neg (Nat.not_lt.mpr many)] at code
      exact Or.inr (Char.toNat_inj.mp (here.trans code.2.symm))

theorem digit?_eq_some_iff (small : base ≤ 16) : digit? base c = some d ↔ IsDigit base c d := by
  have le_iff (a b : Char) : a ≤ b ↔ a.toNat ≤ b.toNat := UInt32.le_iff_toNat_le
  simp only [isDigit_iff small, digit?, le_iff, Char.reduceToNat, Option.ite_none_right_eq_some,
    Option.some.injEq, Coded]
  split
  · omega
  · split
    · omega
    · split <;> omega

theorem IsDigit.unique (small : base ≤ 16) {e : Nat} (hd : IsDigit base c d) (he : IsDigit base c e) :
    d = e := by
  have same := (digit?_eq_some_iff small).mpr hd
  rw [(digit?_eq_some_iff small).mpr he] at same
  exact (Option.some.inj same).symm

theorem not_isDigit_of_lt (small : base ≤ 16) (h : c.toNat < 48) : ¬ IsDigit base c d := by
  intro digit
  obtain ⟨-, coded⟩ := (isDigit_iff small).mp digit
  unfold Coded at coded
  omega

theorem denotes_nil_iff : Denotes base [] n ↔ n = 0 := by
  constructor
  · intro h
    generalize empty : ([] : List Char) = cs at h
    cases h with
    | nil => rfl
    | snoc => simp at empty
  · rintro rfl
    exact .nil

theorem denotes_append_singleton_iff :
    Denotes base (cs ++ [c]) n ↔ ∃ v d, Denotes base cs v ∧ IsDigit base c d ∧ n = v * base + d := by
  constructor
  · intro h
    generalize split : cs ++ [c] = all at h
    cases h with
    | nil => simp at split
    | snoc value digit =>
      obtain ⟨rfl, last⟩ := List.append_inj' split rfl
      obtain rfl := List.head_eq_of_cons_eq last
      exact ⟨_, _, value, digit, rfl⟩
  · rintro ⟨v, d, value, digit, rfl⟩
    exact .snoc value digit

theorem Denotes.unique (small : base ≤ 16) {m : Nat} (hn : Denotes base cs n)
    (hm : Denotes base cs m) : n = m := by
  induction hn generalizing m with
  | nil => exact (denotes_nil_iff.mp hm).symm
  | snoc _ digit ih =>
    obtain ⟨v, d, value, digit', rfl⟩ := denotes_append_singleton_iff.mp hm
    rw [ih value, digit.unique small digit']

theorem Denotes.exists_front {rest : List Char} (h : Denotes base (front ++ rest) n) (pos : 0 < base) :
    ∃ v ≤ n, Denotes base front v := by
  induction rest using List.reverseRecOn generalizing n with
  | nil => exact ⟨n, Nat.le_refl n, by rwa [List.append_nil] at h⟩
  | append_singleton rest c ih =>
    rw [← List.append_assoc] at h
    obtain ⟨v, d, value, -, rfl⟩ := denotes_append_singleton_iff.mp h
    obtain ⟨u, le, first⟩ := ih value
    refine ⟨u, ?_, first⟩
    calc u ≤ v := le
      _ ≤ v * base := Nat.le_mul_of_pos_right v pos
      _ ≤ v * base + d := Nat.le_add_right _ d

/-- Reading goes on from the value of the digits in front. Below the limit it either comes to the
value of all digits, or it ends with the first that is too much, or at a character that is none. -/
theorem readDigits_cases (small : base ≤ 16) (value : Denotes base front v) (below : v < limit) :
    (∃ n < limit, Denotes base (front ++ cs) n ∧ readDigits base limit v cs = .ok n) ∨
    (∃ more rest n, cs = more ++ rest ∧ Denotes base (front ++ more) n ∧ limit ≤ n ∧
      readDigits base limit v cs = .error .tooLarge) ∨
    (∃ more c rest n, cs = more ++ c :: rest ∧ Denotes base (front ++ more) n ∧ n < limit ∧
      (∀ d, ¬ IsDigit base c d) ∧ readDigits base limit v cs = .error .invalidDigit) := by
  induction cs generalizing front v with
  | nil => exact Or.inl ⟨v, below, by rwa [List.append_nil], rfl⟩
  | cons c cs ih =>
    rw [readDigits]
    cases digit : digit? base c with
    | none =>
      have other : ∀ d, ¬ IsDigit base c d := by
        intro d isDigit
        rw [(digit?_eq_some_iff small).mpr isDigit] at digit
        cases digit
      exact Or.inr (Or.inr ⟨[], c, cs, v, rfl, by rwa [List.append_nil], below, other, rfl⟩)
    | some d =>
      have next : Denotes base (front ++ [c]) (v * base + d) :=
        value.snoc ((digit?_eq_some_iff small).mp digit)
      dsimp only
      by_cases still : v * base + d < limit
      · rw [if_pos still]
        rcases ih next still with ⟨n, lt, all, read⟩ | ⟨more, rest, n, rfl, most, le, read⟩ |
          ⟨more, e, rest, n, rfl, most, lt, other, read⟩
        · exact Or.inl ⟨n, lt, by simpa using all, read⟩
        · exact Or.inr (Or.inl ⟨c :: more, rest, n, rfl, by simpa using most, le, read⟩)
        · exact Or.inr (Or.inr ⟨c :: more, e, rest, n, rfl, by simpa using most, lt, other, read⟩)
      · rw [if_neg still]
        exact Or.inr (Or.inl ⟨[c], cs, _, rfl, next, Nat.le_of_not_lt still, rfl⟩)

theorem Denotes.isDigit_of_mem (h : Denotes base cs n) (mem : c ∈ cs) : ∃ d, IsDigit base c d := by
  induction h with
  | nil => cases mem
  | snoc _ digit ih =>
    rcases List.mem_append.mp mem with earlier | last
    · exact ih earlier
    · obtain rfl := List.mem_singleton.mp last
      exact ⟨_, digit⟩

theorem IsNumeral.not_overflows (small : base ≤ 16) (pos : 0 < base) (h : IsNumeral base body n)
    (below : n < limit) : ¬ Overflows base limit body := by
  rintro ⟨front, rest, v, split, value, reached⟩
  have all := h.denotes
  rw [split] at all
  obtain ⟨u, le, first⟩ := all.exists_front pos
  have same := first.unique small value
  omega

theorem IsNumeral.overflows (h : IsNumeral base body n) (reached : limit ≤ n) :
    Overflows base limit body :=
  ⟨digitsOf body, [], n, (List.append_nil _).symm, h.denotes, reached⟩

theorem not_overflows_of_bad (small : base ≤ 16) (pos : 0 < base) {more rest : List Char}
    (split : digitsOf body = more ++ c :: rest) (value : Denotes base more n) (below : n < limit)
    (other : ∀ d, ¬ IsDigit base c d) : ¬ Overflows base limit body := by
  rintro ⟨front, rest', v, split', value', reached⟩
  rw [split] at split'
  rcases List.append_eq_append_iff.mp split' with ⟨later, rfl, after⟩ | ⟨later, rfl, -⟩
  · cases later with
    | nil =>
      rw [List.append_nil] at value'
      have same := value'.unique small value
      omega
    | cons e later =>
      obtain ⟨rfl, -⟩ := List.cons.inj after
      obtain ⟨d, digit⟩ := value'.isDigit_of_mem (List.mem_append_right more List.mem_cons_self)
      exact other d digit
  · obtain ⟨u, le, first⟩ := value.exists_front pos
    have same := first.unique small value'
    omega

theorem read_eq (base limit : Nat) (body : List Char) : read base limit body =
    if body = [] then .error .empty
    else if digitsOf body = [] then .error .invalidDigit
    else readDigits base limit 0 (digitsOf body) := by
  unfold read
  split
  · rfl
  · rfl
  · rename_i digits filled
    have some_digit : digits ≠ [] := by
      rintro rfl
      exact filled rfl
    rw [if_neg (List.cons_ne_nil _ _), digitsOf, if_neg some_digit]
  · rename_i filled _ unsigned
    have plain : digitsOf body = body := by
      unfold digitsOf
      split
      · exact absurd rfl (unsigned _)
      · rfl
    rw [if_neg filled, plain, if_neg filled]

/-- The four ways in which reading ends, of which the conditions exclude each other. -/
inductive Reading (base limit : Nat) (body : List Char) : Except Defect Nat → Prop where
  | accepted {n : Nat} : IsNumeral base body n → n < limit → Reading base limit body (.ok n)
  | empty : body = [] → Reading base limit body (.error .empty)
  | tooLarge : Overflows base limit body → Reading base limit body (.error .tooLarge)
  | invalidDigit : body ≠ [] → (∀ n, ¬ IsNumeral base body n) → ¬ Overflows base limit body →
      Reading base limit body (.error .invalidDigit)

theorem reading_read (small : base ≤ 16) (pos : 0 < base) (room : 0 < limit) (body : List Char) :
    Reading base limit body (read base limit body) := by
  rw [read_eq]
  by_cases empty : body = []
  · rw [if_pos empty]
    exact .empty empty
  rw [if_neg empty]
  by_cases lone : digitsOf body = []
  · rw [if_pos lone]
    refine .invalidDigit empty (fun n h => h.nonempty lone) ?_
    rintro ⟨front, rest, v, split, value, reached⟩
    rw [lone] at split
    obtain ⟨rfl, -⟩ := List.append_eq_nil_iff.mp split.symm
    obtain rfl := denotes_nil_iff.mp value
    omega
  rw [if_neg lone]
  rcases @readDigits_cases base limit 0 (digitsOf body) [] small .nil room with
    ⟨n, lt, all, read⟩ | ⟨more, rest, n, split, most, le, read⟩ |
    ⟨more, c, rest, n, split, most, lt, other, read⟩
  · rw [read]
    exact .accepted ⟨lone, all⟩ lt
  · rw [read]
    exact .tooLarge ⟨more, rest, n, split, most, le⟩
  · rw [read]
    refine .invalidDigit empty ?_ (not_overflows_of_bad small pos split most lt other)
    rintro m ⟨-, all⟩
    rw [split] at all
    obtain ⟨d, digit⟩ := all.isDigit_of_mem (List.mem_append_right more List.mem_cons_self)
    exact other d digit

theorem not_overflows_nil (room : 0 < limit) : ¬ Overflows base limit [] := by
  rintro ⟨front, rest, v, split, value, reached⟩
  obtain ⟨rfl, -⟩ := List.append_eq_nil_iff.mp (show front ++ rest = [] from split.symm)
  obtain rfl := denotes_nil_iff.mp value
  omega

theorem Reading.unique {x y : Except Defect Nat} (small : base ≤ 16) (pos : 0 < base)
    (room : 0 < limit) (hx : Reading base limit body x) (hy : Reading base limit body y) : x = y := by
  cases hx with
  | accepted numeral lt =>
    cases hy with
    | accepted other => rw [numeral.denotes.unique small other.denotes]
    | empty empty => exact absurd (congrArg digitsOf empty) numeral.nonempty
    | tooLarge exceeds => exact absurd exceeds (numeral.not_overflows small pos lt)
    | invalidDigit _ none => exact absurd numeral (none _)
  | empty empty =>
    subst empty
    cases hy with
    | accepted numeral => exact absurd rfl numeral.nonempty
    | empty => rfl
    | tooLarge exceeds => exact absurd exceeds (not_overflows_nil room)
    | invalidDigit filled => exact absurd rfl filled
  | tooLarge exceeds =>
    cases hy with
    | accepted numeral lt => exact absurd exceeds (numeral.not_overflows small pos lt)
    | empty empty =>
      subst empty
      exact absurd exceeds (not_overflows_nil room)
    | tooLarge => rfl
    | invalidDigit _ _ fits => exact absurd exceeds fits
  | invalidDigit filled none fits =>
    cases hy with
    | accepted numeral => exact absurd numeral (none _)
    | empty empty => exact absurd empty filled
    | tooLarge exceeds => exact absurd exceeds fits
    | invalidDigit => rfl

theorem denotes_toDigits (two : 2 ≤ base) (n : Nat) : Denotes base (Nat.toDigits base n) n := by
  induction n using Nat.strongRecOn with
  | ind n ih =>
    rcases Nat.lt_or_ge n base with small | large
    · rw [Nat.toDigits_of_lt_base small]
      have digit : Denotes base ([] ++ [n.digitChar]) (0 * base + n) :=
        .snoc .nil ⟨small, Or.inl rfl⟩
      simpa using digit
    · rw [Nat.toDigits_of_base_le two large]
      have front := ih (n / base) (Nat.div_lt_self (by omega) two)
      have last : IsDigit base (n % base).digitChar (n % base) :=
        ⟨Nat.mod_lt n (by omega), Or.inl rfl⟩
      have all := front.snoc last
      rwa [Nat.div_add_mod'] at all

theorem Denotes.padded (h : Denotes base cs n) (pos : 0 < base) (k : Nat) :
    Denotes base (List.replicate k '0' ++ cs) n := by
  induction h with
  | nil =>
    rw [List.append_nil]
    induction k with
    | zero => exact .nil
    | succ k ih =>
      have zero : IsDigit base '0' 0 := ⟨pos, Or.inl rfl⟩
      rw [List.replicate_succ']
      simpa using ih.snoc zero
  | snoc _ digit ih =>
    rw [← List.append_assoc]
    exact ih.snoc digit

theorem denotes_hexDigits (places n : Nat) : Denotes 16 (hexDigits places n) n :=
  (denotes_toDigits (by decide) n).padded (by decide) _

theorem hexDigits_ne_nil (places n : Nat) : hexDigits places n ≠ [] :=
  List.append_ne_nil_of_right_ne_nil _ Nat.toDigits_ne_nil

theorem IsDigit.of_toLower (small : base ≤ 16) (h : IsDigit base c.toLower d) : IsDigit base c d := by
  obtain ⟨lt, coded⟩ := (isDigit_iff small).mp h
  refine (isDigit_iff small).mpr ⟨lt, ?_⟩
  rw [toNat_toLower] at coded
  unfold Coded at coded ⊢
  split at coded <;> omega

theorem Denotes.of_toLower (small : base ≤ 16) (h : Denotes base (cs.map Char.toLower) n) :
    Denotes base cs n := by
  induction cs using List.reverseRecOn generalizing n with
  | nil => exact h
  | append_singleton cs c ih =>
    rw [List.map_append, List.map_singleton] at h
    obtain ⟨v, d, value, digit, rfl⟩ := denotes_append_singleton_iff.mp h
    exact (ih value).snoc (digit.of_toLower small)

end FrameMachine.Numeral
