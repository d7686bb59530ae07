import FrameMachine.Text

/-!
# JSON text

The first fault met from left to right decides. Text that ends too early is truncated, a character
that cannot stand where it stands makes it malformed, and a well-formed value of the wrong kind is
mismatched. A number is kept as its digits, and is out of range when the double that it stands for
is infinite. A string is read for its characters or only skipped: skipping takes any four hex digits
after `\u`, reading wants those of surrogates in pairs. A value of any shape is passed over with the
list of its open brackets, innermost first, so that no depth is too much.
-/
namespace FrameMachine.Json

inductive Refusal where
  | malformed
  | truncated
  | mismatched
  deriving DecidableEq, Repr

def isBlank (c : Char) : Bool := c == ' ' || c == '\n' || c == '\t' || c == '\r'

def skipBlank (s : List Char) : List Char := s.dropWhile isBlank

def unexpected : List Char → Refusal
  | [] => .truncated
  | _ :: _ => .malformed

def expect : List Char → List Char → Except Refusal (List Char)
  | [], s => .ok s
  | c :: word, d :: s => if c = d then expect word s else .error .malformed
  | _ :: _, [] => .error .truncated

def expectChar (c : Char) (s : List Char) : Except Refusal (List Char) :=
  match skipBlank s with
  | d :: rest => if d = c then .ok rest else .error .malformed
  | [] => .error .truncated

theorem exists_of_bind_eq_ok {α β : Type} {x : Except Refusal α} {f : α → Except Refusal β} {b : β}
    (h : (x >>= f) = .ok b) : ∃ a, x = .ok a ∧ f a = .ok b := by
  cases x with
  | error => cases h
  | ok a => exact ⟨a, rfl, h⟩

theorem exists_of_map_eq_ok {α β : Type} {x : Except Refusal α} {f : α → β} {b : β}
    (h : x.map f = .ok b) : ∃ a, x = .ok a ∧ f a = b := by
  cases x with
  | error => cases h
  | ok a =>
    cases h
    exact ⟨a, rfl, rfl⟩

theorem length_skipBlank_le (s : List Char) : (skipBlank s).length ≤ s.length :=
  (List.dropWhile_sublist _).length_le

theorem length_expect_le {word s rest : List Char} (h : expect word s = .ok rest) :
    rest.length ≤ s.length := by
  fun_induction expect word s with
  | case1 s =>
    cases h
    exact Nat.le_refl _
  | case2 c word s ih => exact Nat.le_succ_of_le (ih h)
  | case3 => cases h
  | case4 => cases h

theorem length_expectChar_lt {c : Char} {s rest : List Char} (h : expectChar c s = .ok rest) :
    rest.length < s.length := by
  have := length_skipBlank_le s
  unfold expectChar at h
  split at h
  next d r heq =>
    split at h
    · cases h
      rw [heq] at this
      exact this
    · cases h
  next => cases h

/-- Without a fraction its digits are empty. -/
structure Number where
  negative : Bool
  whole : List Char
  fraction : List Char
  exponent : Option Int
  deriving DecidableEq, Repr

def digitValue (c : Char) : Nat := c.toNat - '0'.toNat

def valueOf (digits : List Char) : Nat := digits.foldl (fun n c => n * 10 + digitValue c) 0

def readDigits (s : List Char) : Except Refusal (List Char × List Char) :=
  match s.takeWhile Char.isDigit with
  | [] => .error (unexpected s)
  | c :: digits => .ok (c :: digits, s.dropWhile Char.isDigit)

def readSign : List Char → Bool × List Char
  | '-' :: s => (true, s)
  | s => (false, s)

/-- A zero is not followed by further digits. -/
def readWhole (s : List Char) : Except Refusal (List Char × List Char) := do
  let (digits, s) ← readDigits s
  match digits with
  | '0' :: _ :: _ => throw .malformed
  | _ => return (digits, s)

def readFraction : List Char → Except Refusal (List Char × List Char)
  | '.' :: s => readDigits s
  | s => .ok ([], s)

def readPower (negative : Bool) (s : List Char) : Except Refusal (Option Int × List Char) := do
  let (digits, s) ← readDigits s
  return (some (if negative then - (valueOf digits : Int) else valueOf digits), s)

def readExponent : List Char → Except Refusal (Option Int × List Char)
  | 'e' :: '-' :: s | 'E' :: '-' :: s => readPower true s
  | 'e' :: '+' :: s | 'E' :: '+' :: s => readPower false s
  | 'e' :: s | 'E' :: s => readPower false s
  | s => .ok (none, s)

def scanNumber (s : List Char) : Except Refusal (Number × List Char) := do
  let (negative, s) := readSign s
  let (whole, s) ← readWhole s
  let (fraction, s) ← readFraction s
  let (exponent, s) ← readExponent s
  return (⟨negative, whole, fraction, exponent⟩, s)

/-- The value of the leading digits that keep it below `2 ^ 64`, and the number of
digits left out after them. -/
def takeLeading (value : Nat) : List Char → Nat × Nat
  | [] => (value, 0)
  | c :: digits =>
    if value * 10 + digitValue c < UInt64.size then takeLeading (value * 10 + digitValue c) digits
    else (value, digits.length + 1)

/-- The nearest number of at most 53 significant bits; a half goes to the even one. -/
def roundTo53 (n : Nat) : Nat :=
  let unit := 1 <<< (n.log2 - 52)
  let quotient := n / unit
  let excess := 2 * (n % unit)
  if excess < unit ∨ (excess = unit ∧ quotient % 2 = 0) then quotient * unit
  else (quotient + 1) * unit

namespace Number

/-- A product of two rounded factors becomes infinite from the half-way point above
the largest double on. A zero stays zero, and a quotient is never infinite. -/
def isInfinite (n : Number) : Bool :=
  let (leading, dropped) := takeLeading 0 n.whole
  let (significand, ignored) := takeLeading leading n.fraction
  let places := n.fraction.length - ignored
  let power : Int := dropped - places + n.exponent.getD 0
  if significand = 0 ∨ power < 0 then false
  else if 308 < power then true
  else decide (1 <<< 1024 - 1 <<< 970 ≤ roundTo53 significand * roundTo53 (Nat.pow 10 power.toNat))

def natural? (n : Number) : Option Nat :=
  if n.negative = false ∧ n.fraction = [] ∧ n.exponent = none then some (valueOf n.whole)
  else none

end Number

/-- A number that stands for no finite double is refused like a wrong character. -/
def readNumber (s : List Char) : Except Refusal (Number × List Char) := do
  let (n, s) ← scanNumber s
  if n.isInfinite then throw .malformed else return (n, s)

/-- A number that is skipped may stand for anything, and nothing in it counts as
truncated. -/
def skipNumber (s : List Char) : Except Refusal (List Char) :=
  match scanNumber s with
  | .ok (_, rest) => .ok rest
  | .error _ => .error .malformed

theorem length_readDigits_lt {s : List Char} {found : List Char × List Char}
    (h : readDigits s = .ok found) : found.2.length < s.length := by
  have split : (s.takeWhile Char.isDigit).length + (s.dropWhile Char.isDigit).length = s.length := by
    rw [← List.length_append, List.takeWhile_append_dropWhile]
  unfold readDigits at h
  split at h
  · cases h
  next c digits heq =>
    cases h
    rw [heq, List.length_cons] at split
    dsimp only
    omega

theorem length_readSign_le (s : List Char) : (readSign s).2.length ≤ s.length := by
  unfold readSign
  split
  · exact Nat.le_succ _
  · exact Nat.le_refl _

theorem length_readWhole_lt {s : List Char} {found : List Char × List Char}
    (h : readWhole s = .ok found) : found.2.length < s.length := by
  obtain ⟨run, hr, h⟩ := exists_of_bind_eq_ok h
  have := length_readDigits_lt hr
  dsimp only at h
  split at h
  · cases h
  · cases h
    exact this

theorem length_readFraction_le {s : List Char} {found : List Char × List Char}
    (h : readFraction s = .ok found) : found.2.length ≤ s.length := by
  unfold readFraction at h
  split at h
  · exact Nat.le_succ_of_le (Nat.le_of_lt (length_readDigits_lt h))
  · cases h
    exact Nat.le_refl _

theorem length_readPower_lt {negative : Bool} {s : List Char} {found : Option Int × List Char}
    (h : readPower negative s = .ok found) : found.2.length < s.length := by
  obtain ⟨run, hr, h⟩ := exists_of_bind_eq_ok h
  have := length_readDigits_lt hr
  cases h
  exact this

theorem length_readExponent_le {s : List Char} {found : Option Int × List Char}
    (h : readExponent s = .ok found) : found.2.length ≤ s.length := by
  unfold readExponent at h
  split at h
  all_goals first
    | exact Nat.le_of_lt (Nat.lt_of_lt_of_le (length_readPower_lt h) (by grind))
    | cases h
      exact Nat.le_refl _

theorem length_scanNumber_lt {s : List Char} {found : Number × List Char}
    (h : scanNumber s = .ok found) : found.2.length < s.length := by
  have l₀ := length_readSign_le s
  obtain ⟨whole, h₁, h⟩ := exists_of_bind_eq_ok h
  obtain ⟨fraction, h₂, h⟩ := exists_of_bind_eq_ok h
  obtain ⟨exponent, h₃, h⟩ := exists_of_bind_eq_ok h
  have l₁ : whole.2.length < (readSign s).2.length := length_readWhole_lt h₁
  have l₂ := length_readFraction_le h₂
  have l₃ := length_readExponent_le h₃
  cases h
  dsimp only
  omega

theorem length_readNumber_lt {s : List Char} {found : Number × List Char}
    (h : readNumber s = .ok found) : found.2.length < s.length := by
  obtain ⟨n, hn, h⟩ := exists_of_bind_eq_ok h
  have := length_scanNumber_lt hn
  dsimp only at h
  split at h
  · cases h
  · obtain rfl := Except.ok.inj h
    exact this

theorem length_skipNumber_lt {s rest : List Char} (h : skipNumber s = .ok rest) :
    rest.length < s.length := by
  unfold skipNumber at h
  split at h
  next n r heq =>
    cases h
    exact length_scanNumber_lt heq
  next => cases h

def hexDigit? (c : Char) : Option Nat := Numeral.digit? 16 c

def unit? : List Char → Option (Nat × List Char)
  | a :: b :: c :: d :: rest =>
    match hexDigit? a, hexDigit? b, hexDigit? c, hexDigit? d with
    | some a, some b, some c, some d => some (((a * 16 + b) * 16 + c) * 16 + d, rest)
    | _, _, _, _ => none
  | _ => none

/-- Where four digits are missing, fewer than four bytes up to the end count as
truncated, whatever they are. -/
def readUnit (s : List Char) : Except Refusal (Nat × List Char) :=
  match unit? s with
  | some found => .ok found
  | none =>
    if (String.ofList s).utf8ByteSize < 4 then .error .truncated else .error .malformed

def simpleEscape? : Char → Option Char
  | '"' => some '"'
  | '\\' => some '\\'
  | '/' => some '/'
  | 'b' => some '\x08'
  | 'f' => some '\x0c'
  | 'n' => some '\n'
  | 'r' => some '\r'
  | 't' => some '\t'
  | _ => none

def IsLead (unit : Nat) : Prop := 0xD800 ≤ unit ∧ unit ≤ 0xDBFF

def IsTrail (unit : Nat) : Prop := 0xDC00 ≤ unit ∧ unit ≤ 0xDFFF

instance (unit : Nat) : Decidable (IsLead unit) := inferInstanceAs (Decidable (_ ∧ _))

instance (unit : Nat) : Decidable (IsTrail unit) := inferInstanceAs (Decidable (_ ∧ _))

def readTrail (lead : Nat) (s : List Char) : Except Refusal (Char × List Char) := do
  let s ← expect ['\\', 'u'] s
  let (trail, s) ← readUnit s
  if IsTrail trail then
    return (Char.ofNat ((lead - 0xD800) * 0x400 + (trail - 0xDC00) + 0x10000), s)
  else throw .malformed

def readCodePoint (s : List Char) : Except Refusal (Char × List Char) := do
  let (unit, s) ← readUnit s
  if IsTrail unit then throw .malformed
  else if IsLead unit then readTrail unit s
  else return (Char.ofNat unit, s)

def readEscape : List Char → Except Refusal (Char × List Char)
  | [] => .error .truncated
  | c :: s =>
    if c = 'u' then readCodePoint s
    else
      match simpleEscape? c with
      | some d => .ok (d, s)
      | none => .error .malformed

def skipEscape : List Char → Except Refusal (List Char)
  | [] => .error .truncated
  | c :: s =>
    if c = 'u' then (readUnit s).map Prod.snd
    else if (simpleEscape? c).isSome then .ok s
    else .error .malformed

theorem length_readUnit_lt {s : List Char} {found : Nat × List Char}
    (h : readUnit s = .ok found) : found.2.length < s.length := by
  unfold readUnit at h
  split at h
  next n heq =>
    cases h
    unfold unit? at heq
    split at heq
    · split at heq
      · cases heq
        simp only [List.length_cons]
        omega
      · cases heq
    · cases heq
  next =>
    split at h <;> cases h

theorem length_readTrail_lt {lead : Nat} {s : List Char} {found : Char × List Char}
    (h : readTrail lead s = .ok found) : found.2.length < s.length := by
  obtain ⟨s₁, h₁, h⟩ := exists_of_bind_eq_ok h
  obtain ⟨trail, h₂, h⟩ := exists_of_bind_eq_ok h
  have l₁ := length_expect_le h₁
  have l₂ := length_readUnit_lt h₂
  dsimp only at h
  split at h
  · obtain rfl := Except.ok.inj h
    exact Nat.lt_of_lt_of_le l₂ l₁
  · cases h

theorem length_readCodePoint_lt {s : List Char} {found : Char × List Char}
    (h : readCodePoint s = .ok found) : found.2.length < s.length := by
  obtain ⟨unit, h₁, h⟩ := exists_of_bind_eq_ok h
  have l₁ := length_readUnit_lt h₁
  dsimp only at h
  split at h
  · cases h
  split at h
  · exact Nat.lt_trans (length_readTrail_lt h) l₁
  · obtain rfl := Except.ok.inj h
    exact l₁

theorem length_readEscape_lt {s : List Char} {found : Char × List Char}
    (h : readEscape s = .ok found) : found.2.length < s.length := by
  cases s with
  | nil => cases h
  | cons c s =>
    rw [readEscape] at h
    split at h
    · exact Nat.lt_succ_of_lt (length_readCodePoint_lt h)
    split at h
    · cases h
      exact Nat.lt_succ_self _
    · cases h

theorem length_skipEscape_lt {s rest : List Char} (h : skipEscape s = .ok rest) :
    rest.length < s.length := by
  cases s with
  | nil => cases h
  | cons c s =>
    rw [skipEscape] at h
    split at h
    · obtain ⟨found, hu, rfl⟩ := exists_of_map_eq_ok h
      exact Nat.lt_succ_of_lt (length_readUnit_lt hu)
    split at h
    · cases h
      exact Nat.lt_succ_self _
    · cases h

/-- The characters up to the closing quote, after those in `acc`, which is reversed. -/
def readString (acc : List Char) : List Char → Except Refusal (List Char × List Char)
  | [] => .error .truncated
  | c :: s =>
    if c = '"' then .ok (acc.reverse, s)
    else if c = '\\' then
      match h : readEscape s with
      | .ok (d, rest) =>
        have : rest.length < s.length := length_readEscape_lt h
        readString (d :: acc) rest
      | .error fault => .error fault
    else if c < ' ' then .error .malformed
    else readString (c :: acc) s
termination_by s => s.length

def skipString : List Char → Except Refusal (List Char)
  | [] => .error .truncated
  | c :: s =>
    if c = '"' then .ok s
    else if c = '\\' then
      match h : skipEscape s with
      | .ok rest =>
        have := length_skipEscape_lt h
        skipString rest
      | .error fault => .error fault
    else if c < ' ' then .error .malformed
    else skipString s
termination_by s => s.length

theorem length_readString_lt {acc s : List Char} {found : List Char × List Char}
    (h : readString acc s = .ok found) : found.2.length < s.length := by
  fun_induction readString acc s with
  | case1 => cases h
  | case2 =>
    cases h
    exact Nat.lt_succ_self _
  | case3 acc s hq d rest he hl ih =>
    have := ih h
    simp only [List.length_cons]
    omega
  | case4 => cases h
  | case5 => cases h
  | case6 acc c s _ _ _ ih => exact Nat.lt_succ_of_lt (ih h)

theorem length_skipString_lt {s rest : List Char} (h : skipString s = .ok rest) :
    rest.length < s.length := by
  fun_induction skipString s with
  | case1 => cases h
  | case2 =>
    cases h
    exact Nat.lt_succ_self _
  | case3 s hq r he hl ih =>
    have := ih h
    simp only [List.length_cons]
    omega
  | case4 => cases h
  | case5 => cases h
  | case6 c s _ _ _ ih => exact Nat.lt_succ_of_lt (ih h)

inductive Bracket where
  | array
  | object
  deriving DecidableEq, Repr

/-- Whether a value comes next, or one has just ended. -/
inductive Phase where
  | before
  | after
  deriving DecidableEq, Repr

structure Skipping where
  brackets : List Bracket
  phase : Phase
  rest : List Char

def skipKey (s : List Char) : Except Refusal (List Char) := do
  let s ← expectChar '"' s
  let s ← skipString s
  expectChar ':' s

def skipWord (c : Char) (s : List Char) : Except Refusal (List Char) :=
  match c with
  | 'n' => expect ['u', 'l', 'l'] s
  | 't' => expect ['r', 'u', 'e'] s
  | 'f' => expect ['a', 'l', 's', 'e'] s
  | _ => .error .malformed

def skipBefore (brackets : List Bracket) (s : List Char) : Except Refusal Skipping :=
  match skipBlank s with
  | [] => .error .truncated
  | '"' :: s => (skipString s).map (⟨brackets, .after, ·⟩)
  | '[' :: s =>
    match skipBlank s with
    | ']' :: s => .ok ⟨brackets, .after, s⟩
    | s => .ok ⟨.array :: brackets, .before, s⟩
  | '{' :: s =>
    match skipBlank s with
    | '}' :: s => .ok ⟨brackets, .after, s⟩
    | s => (skipKey s).map (⟨.object :: brackets, .before, ·⟩)
  | c :: s =>
    if c = '-' ∨ c.isDigit then (skipNumber (c :: s)).map (⟨brackets, .after, ·⟩)
    else (skipWord c s).map (⟨brackets, .after, ·⟩)

def skipAfter (bracket : Bracket) (outer : List Bracket) (s : List Char) :
    Except Refusal Skipping :=
  match bracket, skipBlank s with
  | _, [] => .error .truncated
  | .array, ',' :: s => .ok ⟨.array :: outer, .before, s⟩
  | .array, ']' :: s => .ok ⟨outer, .after, s⟩
  | .object, ',' :: s => (skipKey s).map (⟨.object :: outer, .before, ·⟩)
  | .object, '}' :: s => .ok ⟨outer, .after, s⟩
  | _, _ :: _ => .error .malformed

theorem length_skipKey_lt {s rest : List Char} (h : skipKey s = .ok rest) :
    rest.length < s.length := by
  obtain ⟨s₁, h₁, h⟩ := exists_of_bind_eq_ok h
  obtain ⟨s₂, h₂, h⟩ := exists_of_bind_eq_ok h
  have l₁ := length_expectChar_lt h₁
  have l₂ := length_skipString_lt h₂
  have l₃ := length_expectChar_lt h
  omega

theorem length_skipWord_le {c : Char} {s rest : List Char} (h : skipWord c s = .ok rest) :
    rest.length ≤ s.length := by
  unfold skipWord at h
  split at h
  all_goals first
    | exact length_expect_le h
    | cases h

theorem length_skipBefore_lt {brackets : List Bracket} {s : List Char} {next : Skipping}
    (h : skipBefore brackets s = .ok next) : next.rest.length < s.length := by
  have l₀ := length_skipBlank_le s
  unfold skipBefore at h
  split at h
  · cases h
  next s₁ heq =>
    obtain ⟨r, hr, rfl⟩ := exists_of_map_eq_ok h
    have := length_skipString_lt hr
    rw [heq, List.length_cons] at l₀
    dsimp only
    omega
  next s₁ heq =>
    have l₁ := length_skipBlank_le s₁
    rw [heq, List.length_cons] at l₀
    split at h
    next s₂ heq₂ =>
      cases h
      rw [heq₂, List.length_cons] at l₁
      dsimp only
      omega
    · cases h
      dsimp only
      omega
  next s₁ heq =>
    have l₁ := length_skipBlank_le s₁
    rw [heq, List.length_cons] at l₀
    split at h
    next s₂ heq₂ =>
      cases h
      rw [heq₂, List.length_cons] at l₁
      dsimp only
      omega
    · obtain ⟨r, hr, rfl⟩ := exists_of_map_eq_ok h
      have := length_skipKey_lt hr
      dsimp only
      omega
  next c s₁ _ _ _ heq =>
    rw [heq, List.length_cons] at l₀
    split at h
    · obtain ⟨r, hr, rfl⟩ := exists_of_map_eq_ok h
      have := length_skipNumber_lt hr
      rw [List.length_cons] at this
      dsimp only
      omega
    · obtain ⟨r, hr, rfl⟩ := exists_of_map_eq_ok h
      have := length_skipWord_le hr
      dsimp only
      omega

theorem length_skipAfter_lt {bracket : Bracket} {outer : List Bracket} {s : List Char}
    {next : Skipping} (h : skipAfter bracket outer s = .ok next) :
    next.rest.length < s.length := by
  have l₀ := length_skipBlank_le s
  unfold skipAfter at h
  split at h
  · cases h
  all_goals
    rename_i heq
    rw [heq, List.length_cons] at l₀
  next =>
    cases h
    exact l₀
  next =>
    cases h
    exact l₀
  next =>
    obtain ⟨r, hr, rfl⟩ := exists_of_map_eq_ok h
    have := length_skipKey_lt hr
    dsimp only
    omega
  next =>
    cases h
    exact l₀
  next => cases h

/-- Passes over what is left of a value, up to the bracket that closes the last. -/
def skip (now : Skipping) : Except Refusal (List Char) :=
  match now with
  | ⟨brackets, .before, s⟩ =>
    match h : skipBefore brackets s with
    | .ok next =>
      have := length_skipBefore_lt h
      skip next
    | .error fault => .error fault
  | ⟨[], .after, s⟩ => .ok s
  | ⟨bracket :: outer, .after, s⟩ =>
    match h : skipAfter bracket outer s with
    | .ok next =>
      have := length_skipAfter_lt h
      skip next
    | .error fault => .error fault
termination_by now.rest.length

def skipValue (s : List Char) : Except Refusal (List Char) := skip ⟨[], .before, s⟩

theorem length_skip_le {now : Skipping} {rest : List Char} (h : skip now = .ok rest) :
    rest.length ≤ now.rest.length := by
  fun_induction skip now with
  | case1 brackets s next he hl ih =>
    have := ih h
    dsimp only
    omega
  | case2 => cases h
  | case3 =>
    cases h
    exact Nat.le_refl _
  | case4 bracket outer s next he hl ih =>
    have := ih h
    dsimp only
    omega
  | case5 => cases h

theorem length_skipValue_le {s rest : List Char} (h : skipValue s = .ok rest) :
    rest.length ≤ s.length := length_skip_le h

end FrameMachine.Json
