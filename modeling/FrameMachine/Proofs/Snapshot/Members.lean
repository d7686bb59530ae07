import FrameMachine.Proofs.Json.Grammar
import FrameMachine.Proofs.Json.Values
import FrameMachine.Snapshot.Reader

/-!
# Reading the members of an object

The members of an object are read one by one. A member under the name of a field adds what is known
of the field, any other is passed over. In an object of the grammar nothing can go wrong but that a
value is of the wrong kind, given twice, or missing.
-/
namespace FrameMachine.Snapshot

open Json

variable {known : Known} {f : Field} {w : UInt16} {m : Member} {ms : List Member} {c : Char}
  {gap key text value rest : List Char}

/-- A reading that can only find a value to be of the wrong kind. -/
def orMismatched {α : Type} (found : Option α) : Except Refusal α :=
  found.elim (.error .mismatched) .ok

def word? (text : List Char) : Option UInt16 :=
  if Nat.toDigits 10 (valueOf text) = text ∧ valueOf text < UInt16.size then
    some (UInt16.ofNat (valueOf text))
  else none

theorem word?_toDigits (w : UInt16) : word? (Nat.toDigits 10 w.toNat) = some w := by
  rw [word?, valueOf_toDigits, if_pos ⟨rfl, w.toNat_lt⟩, UInt16.ofNat_toNat]

theorem word?_eq_some_iff : word? text = some w ↔ text = Nat.toDigits 10 w.toNat := by
  constructor
  · intro h
    rw [word?] at h
    split at h
    next written =>
      obtain rfl := Option.some.inj h
      rw [UInt16.toNat_ofNat_of_lt' written.2, written.1]
    next => cases h
  · rintro rfl
    exact word?_toDigits w

theorem toDigits_inj {v w : UInt16} :
    Nat.toDigits 10 v.toNat = Nat.toDigits 10 w.toNat ↔ v = w := by
  rw [← word?_eq_some_iff, word?_toDigits, Option.some.injEq]

theorem wordOf_of_numberText {n : Number} (h : NumberText n text) :
    wordOf n = orMismatched (word? text) := by
  cases found : word? text with
  | some w =>
    obtain rfl := word?_eq_some_iff.mp found
    obtain rfl := h.eq_of_toDigits
    rw [wordOf, Number.natural?, if_pos ⟨rfl, rfl, rfl⟩, valueOf_toDigits]
    dsimp only
    rw [if_pos w.toNat_lt, UInt16.ofNat_toNat]
    rfl
  | none =>
    rw [wordOf, Number.natural?]
    split
    next value natural =>
      split at natural
      next alone =>
        obtain ⟨negative, whole, fraction, exponent⟩ := n
        obtain ⟨rfl, rfl, rfl⟩ := alone
        obtain ⟨rfl, hwhole⟩ := h.eq_whole
        obtain rfl := Option.some.inj natural
        split
        next small =>
          rw [word?, if_pos ⟨hwhole.toDigits_valueOf, small⟩] at found
          cases found
        next => rfl
      next => cases natural
    next => rfl

theorem word?_eq_none_of_head (other : c.isDigit = false) : word? (c :: text) = none := by
  cases found : word? (c :: text) with
  | none => rfl
  | some w =>
    have digit := isDigit_of_mem_toDigits (word?_eq_some_iff.mp found ▸ List.mem_cons_self)
    rw [other] at digit
    cases digit

theorem readWord_of_fault (blank : AllBlank gap) (solid : isBlank c = false)
    (other : c.isDigit = false) (fault : valueFault (c :: (text ++ rest)) = .mismatched) :
    readWord (gap ++ (c :: text ++ rest)) = orMismatched ((word? (c :: text)).map (·, rest)) := by
  have first : ¬ ((c :: (text ++ rest)).head?.any Char.isDigit = true) := by
    rw [List.head?_cons, Option.any_some, other]
    exact Bool.false_ne_true
  rw [List.cons_append, readWord, blank.skipBlank solid, if_neg first, fault,
    word?_eq_none_of_head other]
  rfl

theorem readWord_of_number {n : Number} (h : NumberText n value) (finite : n.isInfinite = false)
    (blank : AllBlank gap) (ends : EndsNumber rest) :
    readWord (gap ++ (value ++ rest)) = orMismatched ((word? value).map (·, rest)) := by
  have number := h.read finite ends
  obtain ⟨c, tail, rfl, rfl | digit⟩ := h.exists_cons
  · apply readWord_of_fault blank (by decide) (by decide)
    rw [List.cons_append] at number
    rw [valueFault]
    · rw [if_pos (.inl rfl), number]
      rfl
    all_goals decide
  · rw [List.cons_append] at number ⊢
    rw [readWord, blank.skipBlank (isBlank_eq_false_of_isDigit digit), List.head?_cons,
      Option.any_some, if_pos digit, bind_of_ok number]
    dsimp only
    rw [wordOf_of_numberText h]
    cases word? (c :: tail) <;> rfl

/-- The numbers of the text stand for finite doubles. -/
def InRange (value : List Char) : Prop := ∀ n, NumberText n value → n.isInfinite = false

theorem inRange_toDigits (w : UInt16) : InRange (Nat.toDigits 10 w.toNat) := by
  intro n h
  obtain rfl := h.eq_of_toDigits
  exact isInfinite_toDigits w.toNat_lt

theorem readWord_of_value (h : Derives .value value) (finite : InRange value)
    (blank : AllBlank gap) (ends : EndsNumber rest) :
    readWord (gap ++ (value ++ rest)) = orMismatched ((word? value).map (·, rest)) := by
  cases h with
  | number h => exact readWord_of_number h (finite _ h) blank ends
  | nullWord | trueWord | falseWord | emptyArray | array =>
    exact readWord_of_fault blank (by decide) (by decide) rfl
  | @string cs text h =>
    apply readWord_of_fault blank (by decide) (by decide)
    have read := h.readString [] rest
    rw [List.append_assoc, List.singleton_append]
    simp only [valueFault, read, Except.map]
  | object h =>
    cases h <;> exact readWord_of_fault blank (by decide) (by decide) rfl

theorem Field.mem_all (f : Field) : f ∈ all := by
  cases f with
  | register r => exact List.mem_append_left _ (List.mem_map_of_mem r.mem_all)
  | frameWords => exact List.mem_append_right _ List.mem_cons_self

theorem Field.ofName?_name (f : Field) : ofName? f.name.toList = some f := by
  cases f with
  | register r => cases r <;> rfl
  | frameWords => rfl

theorem Field.ofName?_eq_some_iff : Field.ofName? key = some f ↔ key = f.name.toList := by
  constructor
  · intro h
    have found := List.find?_some h
    exact (eq_of_beq found).symm
  · rintro rfl
    exact f.ofName?_name

theorem Field.name_ne {g : Field} (h : f ≠ g) : f.name.toList ≠ g.name.toList := by
  intro same
  have found := same ▸ f.ofName?_name
  exact h (Option.some.inj (found.symm.trans g.ofName?_name))

/-- What is known after a further member, unless it is refused. -/
def note? (known : Known) (m : Member) : Option Known :=
  match Field.ofName? m.key with
  | none => some known
  | some f =>
    if (known.lookup f).isSome then none else (word? m.value).map fun w => (f, w) :: known

theorem note?_of_foreign (foreign : ∀ f : Field, m.key ≠ f.name.toList) :
    note? known m = some known := by
  cases field : Field.ofName? m.key with
  | none => rw [note?, field]
  | some f => exact absurd (Field.ofName?_eq_some_iff.mp field) (foreign f)

theorem note?_of_again (named : m.key = f.name.toList) (again : known.lookup f = some w) :
    note? known m = none := by
  rw [note?, Field.ofName?_eq_some_iff.mpr named]
  dsimp only
  rw [again, if_pos Option.isSome_some]

theorem note?_of_first (named : m.key = f.name.toList) (first : known.lookup f = none) :
    note? known m = (word? m.value).map fun w => (f, w) :: known := by
  rw [note?, Field.ofName?_eq_some_iff.mpr named]
  dsimp only
  rw [first, Option.isSome_none, if_neg Bool.false_ne_true]

/-- A number under the name of a field stands for a finite double. -/
def Readable (m : Member) : Prop := ∀ f : Field, m.key = f.name.toList → InRange m.value

theorem readMember_of_derives (h : Derives (.member m) text) (readable : Readable m)
    (parts : Parts c) (known : Known) (rest : List Char) : ∃ s blanks, AllBlank blanks ∧
      expectChar '"' (text ++ c :: rest) = .ok s ∧
      readMember known s = orMismatched ((note? known m).map (·, blanks ++ c :: rest)) := by
  cases h with
  | @member before key written after value _ blank name element =>
    cases element with
    | @element gap _ blanks around h =>
      have ends : EndsNumber (blanks ++ c :: rest) := around.2.endsNumber_parts parts
      have colon (s : List Char) : expectChar ':' (after ++ ':' :: s) = .ok s :=
        blank.2.expectChar (by decide)
      simp only [List.append_assoc, List.cons_append]
      refine ⟨_, blanks, around.2, blank.1.expectChar (by decide), ?_⟩
      rw [readMember, bind_of_ok (name.readString [] _)]
      dsimp only [List.reverse_nil, List.nil_append, note?]
      cases field : Field.ofName? key with
      | none =>
        dsimp only
        rw [bind_of_ok (colon _), bind_of_ok (h.skipValue around.1 ends)]
        rfl
      | some f =>
        have range := readable f (Field.ofName?_eq_some_iff.mp field)
        dsimp only
        split
        next => rfl
        next =>
          rw [bind_of_ok (colon _), readWord_of_value h range around.1 ends]
          cases word? value <;> rfl

theorem readSeparator_of_last (blank : AllBlank blanks) :
    readSeparator (blanks ++ '}' :: rest) = .ok (false, rest) := by
  rw [readSeparator, blank.skipBlank (by decide)]
  rfl

theorem readMembers_of_last {known' : Known} {t t₁ t₂ : List Char}
    (member : readMember known t = .ok (known', t₁)) (last : readSeparator t₁ = .ok (false, t₂)) :
    readMembers known t = .ok (known', t₂) := by
  rw [readMembers]
  split
  next fault failed => cases member.symm.trans failed
  next read =>
    cases member.symm.trans read
    split
    next fault failed => cases last.symm.trans failed
    next closed =>
      cases last.symm.trans closed
      rfl
    next more => cases last.symm.trans more

theorem readMembers_of_more {known' : Known} {t t₁ t₂ : List Char}
    (member : readMember known t = .ok (known', t₁)) (more : readSeparator t₁ = .ok (true, t₂)) :
    readMembers known t = readMembers known' t₂ := by
  rw [readMembers]
  split
  next fault failed => cases member.symm.trans failed
  next read =>
    cases member.symm.trans read
    split
    next fault failed => cases more.symm.trans failed
    next last => cases more.symm.trans last
    next separated =>
      cases more.symm.trans separated
      rfl

theorem readMembers_of_error {t : List Char} {fault : Refusal}
    (member : readMember known t = .error fault) : readMembers known t = .error fault := by
  rw [readMembers]
  split
  next failed => exact congrArg _ (Except.error.inj (failed.symm.trans member))
  next read => cases member.symm.trans read

theorem readSeparator_of_comma {blanks : List Char} (blank : AllBlank blanks) {s t : List Char}
    (quote : expectChar '"' s = .ok t) : readSeparator (blanks ++ ',' :: s) = .ok (true, t) := by
  rw [readSeparator, blank.skipBlank (by decide)]
  change (expectChar '"' s).map _ = _
  rw [quote]
  rfl

theorem readMembers_of_derives (h : Derives (.members ms) text) (readable : ∀ m ∈ ms, Readable m)
    (known : Known) (rest : List Char) : ∃ s, expectChar '"' (text ++ '}' :: rest) = .ok s ∧
      readMembers known s = orMismatched ((ms.foldlM note? known).map (·, rest)) := by
  induction ms generalizing text known with
  | nil => cases h
  | cons m ms ih =>
    have here := readable m List.mem_cons_self
    cases h with
    | lastMember h =>
      obtain ⟨s, blanks, blank, quote, member⟩ :=
        readMember_of_derives h here (.inr (.inr rfl)) known rest
      refine ⟨s, quote, ?_⟩
      rw [List.foldlM_cons]
      cases noted : note? known m with
      | none =>
        rw [noted] at member
        exact readMembers_of_error member
      | some known' =>
        rw [noted] at member
        exact readMembers_of_last member (readSeparator_of_last blank)
    | @nextMember _ _ text texts head tail =>
      obtain ⟨s, blanks, blank, quote, member⟩ :=
        readMember_of_derives head here (.inl rfl) known (texts ++ '}' :: rest)
      rw [List.append_assoc]
      refine ⟨s, quote, ?_⟩
      rw [List.foldlM_cons]
      cases noted : note? known m with
      | none =>
        rw [noted] at member
        exact readMembers_of_error member
      | some known' =>
        rw [noted] at member
        obtain ⟨s', quote', members⟩ :=
          ih tail (fun m hm => readable m (List.mem_cons_of_mem _ hm)) known'
        rw [readMembers_of_more member (readSeparator_of_comma blank quote')]
        exact members

theorem readObject_of_derives (h : Derives (.object ms) text) (readable : ∀ m ∈ ms, Readable m)
    (rest : List Char) : ∃ s, text ++ rest = '{' :: s ∧
      readObject s = orMismatched ((ms.foldlM note? []).map (·, rest)) := by
  cases h with
  | @emptyObject blanks blank =>
    refine ⟨_, List.cons_append, ?_⟩
    rw [List.append_assoc, List.singleton_append, readObject, blank.skipBlank (by decide)]
    rfl
  | @members _ text h =>
    obtain ⟨s, quote, members⟩ := readMembers_of_derives h readable [] rest
    obtain ⟨c, t, opening, -, other⟩ := h.opens ('}' :: rest)
    refine ⟨_, List.cons_append, ?_⟩
    have again := (expectChar_congr (skipBlank_skipBlank _) '"').trans quote
    rw [List.append_assoc, List.singleton_append, readObject]
    rw [opening] at again ⊢
    split
    next heq =>
      cases heq
      exact absurd rfl other
    next =>
      rw [bind_of_ok again]
      exact members

theorem parse_of_isObject {text : String} (object : IsObject ms text.toList)
    (readable : ∀ m ∈ ms, Readable m) :
    parse text = orMismatched ((ms.foldlM note? []).bind ofKnown?) := by
  obtain ⟨before, object, after, blank, h, split⟩ := object
  obtain ⟨s, opening, read⟩ := readObject_of_derives h readable after
  have value : readValue text.toList = readObject s >>= complete := by
    rw [split, opening, readValue, blank.1.skipBlank (by decide)]
    rfl
  have closing : skipBlank after = [] := List.dropWhile_eq_nil_iff.mpr blank.2
  rw [parse, value, read]
  cases ms.foldlM note? [] with
  | none => rfl
  | some known =>
    change complete (known, after) >>= _ = orMismatched (ofKnown? known)
    rw [complete]
    cases ofKnown? known with
    | none => rfl
    | some s =>
      change (if skipBlank after = [] then _ else _) = _
      rw [if_pos closing]
      rfl

end FrameMachine.Snapshot
