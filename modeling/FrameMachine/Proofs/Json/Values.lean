import FrameMachine.Json
import FrameMachine.Proofs.Json.Grammar
import Mathlib.Data.List.DropRight

/-!
# The grammar of values

Arrays are made of elements and objects of members, to any depth. The members of an object are kept
as what the keys stand for and the texts of the values. A value that is skipped is passed over as a
whole, whatever it holds.
-/
namespace FrameMachine.Json

structure Member where
  key : List Char
  value : List Char

/-- An element is a value with the blanks around it; rows of elements and of members are not empty. -/
inductive Phrase where
  | value
  | element (value : List Char)
  | elements
  | member (m : Member)
  | members (ms : List Member)
  | object (ms : List Member)

inductive Derives : Phrase → List Char → Prop where
  | nullWord : Derives .value ['n', 'u', 'l', 'l']
  | trueWord : Derives .value ['t', 'r', 'u', 'e']
  | falseWord : Derives .value ['f', 'a', 'l', 's', 'e']
  | number {n : Number} {text : List Char} (h : NumberText n text) : Derives .value text
  | string {cs text : List Char} (h : StringText cs text) :
      Derives .value ('"' :: (text ++ ['"']))
  | emptyArray {blanks : List Char} (blank : AllBlank blanks) :
      Derives .value ('[' :: (blanks ++ [']']))
  | array {text : List Char} (h : Derives .elements text) : Derives .value ('[' :: (text ++ [']']))
  | object {ms : List Member} {text : List Char} (h : Derives (.object ms) text) :
      Derives .value text
  | element {before value after : List Char} (blank : AllBlank before ∧ AllBlank after)
      (h : Derives .value value) : Derives (.element value) (before ++ (value ++ after))
  | lastElement {value text : List Char} (h : Derives (.element value) text) :
      Derives .elements text
  | nextElement {value text texts : List Char} (head : Derives (.element value) text)
      (tail : Derives .elements texts) : Derives .elements (text ++ ',' :: texts)
  | member {before key written after value text : List Char}
      (blank : AllBlank before ∧ AllBlank after) (name : StringText key written)
      (h : Derives (.element value) text) :
      Derives (.member ⟨key, value⟩)
        (before ++ '"' :: (written ++ '"' :: (after ++ ':' :: text)))
  | lastMember {m : Member} {text : List Char} (h : Derives (.member m) text) :
      Derives (.members [m]) text
  | nextMember {m : Member} {ms : List Member} {text texts : List Char}
      (head : Derives (.member m) text) (tail : Derives (.members ms) texts) :
      Derives (.members (m :: ms)) (text ++ ',' :: texts)
  | emptyObject {blanks : List Char} (blank : AllBlank blanks) :
      Derives (.object []) ('{' :: (blanks ++ ['}']))
  | members {ms : List Member} {text : List Char} (h : Derives (.members ms) text) :
      Derives (.object ms) ('{' :: (text ++ ['}']))

def IsObject (ms : List Member) (text : List Char) : Prop :=
  ∃ before object after, (AllBlank before ∧ AllBlank after) ∧ Derives (.object ms) object ∧
    text = before ++ (object ++ after)

variable {n : Number} {p : Phrase} {c : Char} {s t text rest : List Char} {bracket : Bracket}
  {brackets outer : List Bracket}

/-- The text has a character, and the first that is no blank closes nothing. -/
def Opens (text : List Char) : Prop :=
  ∀ rest, ∃ c s, skipBlank (text ++ rest) = c :: s ∧ c ≠ ']' ∧ c ≠ '}'

theorem opens_cons (solid : isBlank c = false) (array : c ≠ ']') (object : c ≠ '}') :
    Opens (c :: text) :=
  fun _ => ⟨c, _, skipBlank_cons solid, array, object⟩

theorem isBlank_eq_false_of_isDigit (digit : c.isDigit = true) : isBlank c = false := by
  apply Bool.eq_false_iff.mpr
  intro blank
  simp only [isBlank, Bool.or_eq_true, beq_iff_eq] at blank
  rcases blank with ((rfl | rfl) | rfl) | rfl <;> exact absurd digit (by decide)

theorem NumberText.exists_cons (h : NumberText n text) :
    ∃ c tail, text = c :: tail ∧ (c = '-' ∨ c.isDigit = true) := by
  obtain @⟨negative, whole, fraction, fractionText, exponentText, exponent, hwhole, -, -⟩ := h
  obtain ⟨c, tail, rfl, digit⟩ := hwhole.1.exists_cons
  cases negative with
  | true => exact ⟨_, _, rfl, .inl rfl⟩
  | false => exact ⟨_, _, rfl, .inr digit⟩

theorem NumberText.opens (h : NumberText n text) : Opens text := by
  obtain ⟨c, tail, rfl, rfl | digit⟩ := h.exists_cons
  · exact opens_cons (by decide) (by decide) (by decide)
  · refine opens_cons (isBlank_eq_false_of_isDigit digit) ?_ ?_ <;>
    · rintro rfl
      exact absurd digit (by decide)

theorem Derives.opens (h : Derives p text) : Opens text := by
  induction h with
  | number h => exact h.opens
  | nullWord | trueWord | falseWord | string | emptyArray | array | emptyObject | members =>
    exact opens_cons (by decide) (by decide) (by decide)
  | object _ ih | lastElement _ ih | lastMember _ ih => exact ih
  | element blank _ ih =>
    intro rest
    rw [List.append_assoc, blank.1.skipBlank_append, List.append_assoc]
    exact ih _
  | nextElement _ _ ih | nextMember _ _ ih =>
    intro rest
    rw [List.append_assoc]
    exact ih _
  | member blank =>
    intro rest
    rw [List.append_assoc, List.cons_append, blank.1.skipBlank (by decide)]
    exact ⟨'"', _, rfl, by decide, by decide⟩

theorem skipBlank_skipBlank (s : List Char) : skipBlank (skipBlank s) = skipBlank s :=
  List.dropWhile_idempotent isBlank s

theorem skip_before (brackets : List Bracket) (s : List Char) :
    skip ⟨brackets, .before, s⟩ = skipBefore brackets s >>= skip := by
  rw [skip]
  split
  next next h => exact (bind_of_ok h skip).symm
  next fault h =>
    rw [h]
    rfl

theorem skip_after (bracket : Bracket) (outer : List Bracket) (s : List Char) :
    skip ⟨bracket :: outer, .after, s⟩ = skipAfter bracket outer s >>= skip := by
  rw [skip]
  split
  next next h => exact (bind_of_ok h skip).symm
  next fault h =>
    rw [h]
    rfl

theorem skip_before_congr (h : skipBlank s = skipBlank t) (brackets : List Bracket) :
    skip ⟨brackets, .before, s⟩ = skip ⟨brackets, .before, t⟩ := by
  rw [skip_before, skip_before, skipBefore, h, ← skipBefore]

theorem skip_after_congr (h : skipBlank s = skipBlank t) (bracket : Bracket)
    (outer : List Bracket) :
    skip ⟨bracket :: outer, .after, s⟩ = skip ⟨bracket :: outer, .after, t⟩ := by
  rw [skip_after, skip_after]
  unfold skipAfter
  rw [h]

theorem expectChar_congr (h : skipBlank s = skipBlank t) (c : Char) :
    expectChar c s = expectChar c t := by
  rw [expectChar, h, ← expectChar]

theorem skipKey_congr (h : skipBlank s = skipBlank t) : skipKey s = skipKey t := by
  rw [skipKey, expectChar_congr h, ← skipKey]

theorem skip_of_before {next : Skipping} (h : skipBefore brackets s = .ok next) :
    skip ⟨brackets, .before, s⟩ = skip next := by
  rw [skip_before, bind_of_ok h]

theorem skip_of_after {next : Skipping} (h : skipAfter bracket outer s = .ok next) :
    skip ⟨bracket :: outer, .after, s⟩ = skip next := by
  rw [skip_after, bind_of_ok h]

theorem skipBefore_number (sign : c = '-' ∨ c.isDigit = true) (brackets : List Bracket)
    (s : List Char) :
    skipBefore brackets (c :: s) = (skipNumber (c :: s)).map (⟨brackets, .after, ·⟩) := by
  have solid : isBlank c = false := by
    rcases sign with rfl | digit
    · decide
    · exact isBlank_eq_false_of_isDigit digit
  rw [skipBefore, skipBlank_cons solid]
  split
  next heq => cases heq
  next heq =>
    cases heq
    exact absurd sign (by decide)
  next heq =>
    cases heq
    exact absurd sign (by decide)
  next heq =>
    cases heq
    exact absurd sign (by decide)
  next heq =>
    cases heq
    rw [if_pos sign]

theorem NumberText.skipBefore (h : NumberText n text) (ends : EndsNumber rest)
    (brackets : List Bracket) :
    skipBefore brackets (text ++ rest) = .ok ⟨brackets, .after, rest⟩ := by
  have number := h.skip ends
  obtain ⟨c, tail, rfl, sign⟩ := h.exists_cons
  rw [List.cons_append, skipBefore_number sign, ← List.cons_append, number]
  rfl

theorem skipBefore_string (brackets : List Bracket) (s : List Char) :
    skipBefore brackets ('"' :: s) = (skipString s).map (⟨brackets, .after, ·⟩) := rfl

theorem skipBefore_array (brackets : List Bracket) (s : List Char) :
    skipBefore brackets ('[' :: s) = match skipBlank s with
      | ']' :: s => .ok ⟨brackets, .after, s⟩
      | s => .ok ⟨.array :: brackets, .before, s⟩ := rfl

theorem skipBefore_object (brackets : List Bracket) (s : List Char) :
    skipBefore brackets ('{' :: s) = match skipBlank s with
      | '}' :: s => .ok ⟨brackets, .after, s⟩
      | s => (skipKey s).map (⟨.object :: brackets, .before, ·⟩) := rfl

theorem Opens.skip_array (h : Opens text) (brackets : List Bracket) (rest : List Char) :
    skip ⟨brackets, .before, '[' :: (text ++ rest)⟩ =
      skip ⟨.array :: brackets, .before, text ++ rest⟩ := by
  obtain ⟨c, s, opening, other, -⟩ := h rest
  have step : skipBefore brackets ('[' :: (text ++ rest)) =
      .ok ⟨.array :: brackets, .before, skipBlank (text ++ rest)⟩ := by
    rw [skipBefore_array, opening]
    split
    next heq =>
      cases heq
      exact absurd rfl other
    next => rfl
  rw [skip_of_before step]
  exact skip_before_congr (skipBlank_skipBlank _) _

theorem Opens.skip_object (h : Opens text) (brackets : List Bracket) (rest : List Char) :
    skip ⟨brackets, .before, '{' :: (text ++ rest)⟩ =
      skipKey (text ++ rest) >>= fun s => skip ⟨.object :: brackets, .before, s⟩ := by
  obtain ⟨c, s, opening, -, other⟩ := h rest
  have step : skipBefore brackets ('{' :: (text ++ rest)) =
      (skipKey (text ++ rest)).map (⟨.object :: brackets, .before, ·⟩) := by
    rw [skipBefore_object, ← skipKey_congr (skipBlank_skipBlank _), opening]
    split
    next heq =>
      cases heq
      exact absurd rfl other
    next => rfl
  rw [skip_before, step]
  cases skipKey (text ++ rest) <;> rfl

def Parts (c : Char) : Prop := c = ',' ∨ c = ']' ∨ c = '}'

theorem AllBlank.endsNumber_parts {blanks : List Char} (blank : AllBlank blanks) (h : Parts c) :
    EndsNumber (blanks ++ c :: rest) := by
  rcases h with rfl | rfl | rfl <;> exact blank.endsNumber (by decide)

def Skips : Phrase → List Char → Prop
  | .value, text | .object _, text => ∀ brackets rest, EndsNumber rest →
      skip ⟨brackets, .before, text ++ rest⟩ = skip ⟨brackets, .after, rest⟩
  | .element _, text => ∀ bracket outer c rest, Parts c →
      skip ⟨bracket :: outer, .before, text ++ c :: rest⟩ =
        skip ⟨bracket :: outer, .after, c :: rest⟩
  | .elements, text => ∀ outer rest,
      skip ⟨.array :: outer, .before, text ++ ']' :: rest⟩ = skip ⟨outer, .after, rest⟩
  | .member _, text => ∀ outer c rest, Parts c →
      (skipKey (text ++ c :: rest) >>= fun s => skip ⟨.object :: outer, .before, s⟩) =
        skip ⟨.object :: outer, .after, c :: rest⟩
  | .members _, text => ∀ outer rest,
      (skipKey (text ++ '}' :: rest) >>= fun s => skip ⟨.object :: outer, .before, s⟩) =
        skip ⟨outer, .after, rest⟩

theorem skipKey_of_stringText {before key written after : List Char}
    (blank : AllBlank before ∧ AllBlank after) (name : StringText key written) (rest : List Char) :
    skipKey (before ++ '"' :: (written ++ '"' :: (after ++ ':' :: rest))) = .ok rest := by
  rw [skipKey, bind_of_ok (blank.1.expectChar (by decide)), bind_of_ok (name.skipString _)]
  exact blank.2.expectChar (by decide)

theorem Derives.skips (h : Derives p text) : Skips p text := by
  induction h with
  | nullWord | trueWord | falseWord => exact fun brackets rest _ => skip_of_before rfl
  | number h => exact fun brackets rest ends => skip_of_before (h.skipBefore ends brackets)
  | string h =>
    intro brackets rest _
    rw [List.cons_append, List.append_assoc, List.singleton_append]
    apply skip_of_before
    rw [skipBefore_string, h.skipString]
    rfl
  | emptyArray blank =>
    intro brackets rest _
    rw [List.cons_append, List.append_assoc, List.singleton_append]
    apply skip_of_before
    rw [skipBefore_array, blank.skipBlank (by decide)]
    rfl
  | emptyObject blank =>
    intro brackets rest _
    rw [List.cons_append, List.append_assoc, List.singleton_append]
    apply skip_of_before
    rw [skipBefore_object, blank.skipBlank (by decide)]
    rfl
  | array h ih =>
    intro brackets rest _
    rw [List.cons_append, List.append_assoc, h.opens.skip_array]
    exact ih brackets rest
  | members h ih =>
    intro brackets rest _
    rw [List.cons_append, List.append_assoc, h.opens.skip_object]
    exact ih brackets rest
  | object _ ih => exact ih
  | element blank _ ih =>
    intro bracket outer c rest parts
    rw [List.append_assoc, List.append_assoc, skip_before_congr blank.1.skipBlank_append,
      ih _ _ (blank.2.endsNumber_parts parts)]
    exact skip_after_congr blank.2.skipBlank_append bracket outer
  | lastElement _ ih =>
    intro outer rest
    rw [ih .array outer ']' rest (.inr (.inl rfl))]
    exact skip_of_after rfl
  | nextElement _ _ ihHead ihTail =>
    intro outer rest
    rw [List.append_assoc, List.cons_append, ihHead .array outer ',' _ (.inl rfl),
      ← ihTail outer rest]
    exact skip_of_after rfl
  | member blank name _ ih =>
    intro outer c rest parts
    simp only [List.append_assoc, List.cons_append]
    rw [bind_of_ok (skipKey_of_stringText blank name _)]
    exact ih .object outer c rest parts
  | lastMember _ ih =>
    intro outer rest
    rw [ih outer '}' rest (.inr (.inr rfl))]
    exact skip_of_after rfl
  | nextMember _ _ ihHead ihTail =>
    intro outer rest
    have step (s : List Char) : skipAfter .object outer (',' :: s) =
        (skipKey s).map (⟨.object :: outer, .before, ·⟩) := rfl
    rw [List.append_assoc, List.cons_append, ihHead outer ',' _ (.inl rfl), ← ihTail outer rest,
      skip_after, step]
    cases skipKey _ <;> rfl

/-- A value is passed over whatever it holds. -/
theorem Derives.skipValue {blanks : List Char} (h : Derives .value text) (blank : AllBlank blanks)
    (ends : EndsNumber rest) : skipValue (blanks ++ (text ++ rest)) = .ok rest := by
  rw [Json.skipValue, skip_before_congr blank.skipBlank_append, h.skips [] rest ends, skip]

end FrameMachine.Json
