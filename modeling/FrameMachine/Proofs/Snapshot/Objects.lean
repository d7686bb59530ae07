import FrameMachine.Proofs.Snapshot.Members

/-!
# Which objects are snapshots

An object is read as a snapshot by the values that it gives for each field. Every register has one
value, the count of frame words at most one, and each is a word in decimal. Members under other
names are passed over, whatever they are and wherever they stand.
-/
namespace FrameMachine.Snapshot

open Json

variable {s : Snapshot} {known : Known} {f : Field} {w : UInt16} {m : Member} {ms : List Member}
  {gap value : List Char}

/-- The texts of the values under the name of a field. -/
def given (ms : List Member) (f : Field) : List (List Char) :=
  (ms.filter fun m => m.key == f.name.toList).map Member.value

/-- What is known of a field after the values that are given for it, unless one is refused. -/
def settle? : Option UInt16 → List (List Char) → Option (Option UInt16)
  | found, [] => some found
  | some _, _ :: _ => none
  | none, value :: values => (word? value).bind fun w => settle? (some w) values

theorem settle?_some {found : Option UInt16} {values : List (List Char)} :
    settle? (some w) values = some found ↔ values = [] ∧ found = some w := by
  cases values <;> simp [settle?, eq_comm]

theorem settle?_none {found : Option UInt16} {values : List (List Char)} :
    settle? none values = some found ↔ (values = [] ∧ found = none) ∨
      ∃ w : UInt16, values = [Nat.toDigits 10 w.toNat] ∧ found = some w := by
  cases values with
  | nil => simp [settle?, eq_comm]
  | cons value values =>
    simp only [settle?, Option.bind_eq_some_iff, word?_eq_some_iff, settle?_some]
    constructor
    · rintro ⟨w, rfl, rfl, rfl⟩
      exact .inr ⟨w, rfl, rfl⟩
    · rintro (⟨⟨⟩, -⟩ | ⟨w, same, rfl⟩)
      obtain ⟨rfl, rfl⟩ := List.cons.inj same
      exact ⟨w, rfl, rfl, rfl⟩

theorem given_cons_of_ne (h : m.key ≠ f.name.toList) : given (m :: ms) f = given ms f := by
  rw [given, List.filter_cons, if_neg (by simpa using h), ← given]

theorem given_cons_self (h : m.key = f.name.toList) :
    given (m :: ms) f = m.value :: given ms f := by
  rw [given, List.filter_cons, if_pos (by simpa using h), List.map_cons, ← given]

theorem foldlM_note?_cases (ms : List Member) (known : Known) :
    (∃ known', ms.foldlM note? known = some known' ∧
      ∀ f, settle? (known.lookup f) (given ms f) = some (known'.lookup f)) ∨
    (ms.foldlM note? known = none ∧ ∃ f, settle? (known.lookup f) (given ms f) = none) := by
  induction ms generalizing known with
  | nil => exact .inl ⟨known, rfl, fun _ => rfl⟩
  | cons m ms ih =>
    rw [List.foldlM_cons]
    by_cases foreign : ∀ f : Field, m.key ≠ f.name.toList
    · simp only [note?_of_foreign foreign, given_cons_of_ne (foreign _)]
      exact ih known
    obtain ⟨g, named⟩ := not_forall_not.mp foreign
    cases before : known.lookup g with
    | some w =>
      refine .inr ⟨by rw [note?_of_again named before]; rfl, g, ?_⟩
      rw [before, given_cons_self named]
      rfl
    | none =>
      have noted := note?_of_first named before
      cases found : word? m.value with
      | none =>
        refine .inr ⟨by rw [noted, found]; rfl, g, ?_⟩
        rw [before, given_cons_self named, settle?, found]
        rfl
      | some w =>
        have settled (f : Field) : settle? (known.lookup f) (given (m :: ms) f) =
            settle? (List.lookup f ((g, w) :: known)) (given ms f) := by
          rcases eq_or_ne f g with rfl | h
          · rw [before, given_cons_self named, settle?, found, List.lookup_cons_self]
            rfl
          · have other : m.key ≠ f.name.toList := named ▸ Field.name_ne h.symm
            rw [given_cons_of_ne other, List.lookup_cons, beq_eq_false_iff_ne.mpr h]
        rw [noted, found]
        simp only [settled]
        exact ih ((g, w) :: known)

theorem get_ofValues (value : Register → UInt16) (frameWords : UInt16) (r : Register) :
    (ofValues value frameWords).get r = value r := by
  cases r <;> rfl

theorem ofValues_get (s : Snapshot) : ofValues s.get s.frameWords = s := by
  cases s
  rfl

theorem ofKnown?_eq_some_iff : ofKnown? known = some s ↔
    (∀ r, known.lookup (.register r) = some (s.get r)) ∧
      (known.lookup .frameWords).getD 0 = s.frameWords := by
  constructor
  · intro h
    rw [ofKnown?] at h
    split at h
    next complete =>
      obtain rfl := Option.some.inj h
      refine ⟨fun r => ?_, rfl⟩
      have present := List.all_eq_true.mp complete r r.mem_all
      obtain ⟨w, found⟩ := Option.isSome_iff_exists.mp present
      rw [get_ofValues, found, Option.getD_some]
    next => cases h
  · rintro ⟨registers, frameWords⟩
    simp only [ofKnown?, registers, frameWords, Option.isSome_some, List.all_eq_true, implies_true,
      if_pos, Option.getD_some]
    exact congrArg some s.ofValues_get

/-- The members give the registers of the snapshot once each, and its count of frame words unless
that is zero. -/
def Gives (ms : List Member) (s : Snapshot) : Prop :=
  (∀ r, given ms (.register r) = [Nat.toDigits 10 (s.get r).toNat]) ∧
    (given ms .frameWords = [Nat.toDigits 10 s.frameWords.toNat] ∨
      given ms .frameWords = [] ∧ s.frameWords = 0)

theorem Gives.settle? (h : Gives ms s) (f : Field) :
    ∃ found, settle? none (given ms f) = some found := by
  cases f with
  | register r => exact ⟨_, settle?_none.mpr (.inr ⟨_, h.1 r, rfl⟩)⟩
  | frameWords =>
    rcases h.2 with given | ⟨given, -⟩
    · exact ⟨_, settle?_none.mpr (.inr ⟨_, given, rfl⟩)⟩
    · exact ⟨_, settle?_none.mpr (.inl ⟨given, rfl⟩)⟩

theorem ofKnown?_foldlM_iff :
    (ms.foldlM note? []).bind ofKnown? = some s ↔ Gives ms s := by
  rcases foldlM_note?_cases ms [] with ⟨known, noted, settled⟩ | ⟨refused, f, unsettled⟩
  · have register (r : Register) (w : UInt16) :
        known.lookup (.register r) = some w ↔ given ms (.register r) = [Nat.toDigits 10 w.toNat] := by
      rcases settle?_none.mp (settled (.register r)) with ⟨given, found⟩ | ⟨v, given, found⟩
      · simp [given, found]
      · simp [given, found, toDigits_inj]
    have count (w : UInt16) : (known.lookup .frameWords).getD 0 = w ↔
        given ms .frameWords = [Nat.toDigits 10 w.toNat] ∨ given ms .frameWords = [] ∧ w = 0 := by
      rcases settle?_none.mp (settled .frameWords) with ⟨given, found⟩ | ⟨v, given, found⟩
      · simp [given, found, eq_comm]
      · simp [given, found, toDigits_inj]
    rw [noted, Option.bind_some, ofKnown?_eq_some_iff, Gives, count]
    simp only [register]
  · rw [refused, Option.bind_none]
    refine ⟨nofun, fun h => ?_⟩
    obtain ⟨found, settled⟩ := h.settle? f
    cases unsettled.symm.trans settled

theorem parse_eq_ok_iff {text : String} (object : IsObject ms text.toList)
    (readable : ∀ m ∈ ms, Readable m) : parse text = .ok s ↔ Gives ms s := by
  rw [parse_of_isObject object readable, ← ofKnown?_foldlM_iff]
  cases (ms.foldlM note? []).bind ofKnown? <;> simp [orMismatched]

theorem parse_eq_mismatched {text : String} (object : IsObject ms text.toList)
    (readable : ∀ m ∈ ms, Readable m) (none : ∀ s, ¬ Gives ms s) :
    parse text = .error .mismatched := by
  rw [parse_of_isObject object readable]
  cases found : (ms.foldlM note? []).bind ofKnown? with
  | none => rfl
  | some s => exact absurd (ofKnown?_foldlM_iff.mp found) (none s)

/-- Every register is the key of one member, the count of frame words of at most one, and these
members have words in decimal. -/
structure IsSnapshot (ms : List Member) : Prop where
  registers : ∀ r : Register, (ms.map Member.key).count r.name.toList = 1
  frameWords : (ms.map Member.key).count "stack_frame_words".toList ≤ 1
  words : ∀ m ∈ ms, ∀ f : Field, m.key = f.name.toList →
    ∃ w : UInt16, m.value = Nat.toDigits 10 w.toNat

theorem length_given (ms : List Member) (f : Field) :
    (given ms f).length = (ms.map Member.key).count f.name.toList := by
  rw [given, List.length_map, List.count, List.countP_map, List.countP_eq_length_filter]
  rfl

theorem mem_given : value ∈ given ms f ↔ ⟨f.name.toList, value⟩ ∈ ms := by
  simp only [given, List.mem_map, List.mem_filter, beq_iff_eq]
  constructor
  · rintro ⟨m, ⟨hm, named⟩, rfl⟩
    rw [← named]
    exact hm
  · intro hm
    exact ⟨_, ⟨hm, rfl⟩, rfl⟩

theorem Gives.isSnapshot (h : Gives ms s) : IsSnapshot ms := by
  refine ⟨fun r => ?_, ?_, ?_⟩
  · have once := congrArg List.length (h.1 r)
    rwa [length_given] at once
  · have atMost : (given ms .frameWords).length ≤ 1 := by
      rcases h.2 with given | ⟨given, -⟩ <;> simp [given]
    rwa [length_given] at atMost
  · rintro ⟨key, value⟩ hm f rfl
    obtain ⟨found, settled⟩ := h.settle? f
    have member := mem_given.mpr hm
    rcases settle?_none.mp settled with ⟨given, -⟩ | ⟨w, given, -⟩
    · rw [given] at member
      cases member
    · rw [given] at member
      exact ⟨w, List.mem_singleton.mp member⟩

theorem IsSnapshot.exists_given (h : IsSnapshot ms) (one : (given ms f).length = 1) :
    ∃ w : UInt16, given ms f = [Nat.toDigits 10 w.toNat] := by
  obtain ⟨value, alone⟩ := List.length_eq_one_iff.mp one
  have member : value ∈ given ms f := alone ▸ List.mem_singleton_self value
  obtain ⟨w, rfl⟩ := h.words _ (mem_given.mp member) f rfl
  exact ⟨w, alone⟩

theorem IsSnapshot.gives (h : IsSnapshot ms) : ∃ s, Gives ms s := by
  have single (r : Register) := (length_given ms (.register r)).trans (h.registers r)
  choose register registers using fun r => h.exists_given (single r)
  have count := (length_given ms .frameWords).trans_le h.frameWords
  rcases Nat.le_one_iff_eq_zero_or_eq_one.mp count with absent | one
  · refine ⟨ofValues register 0, fun r => ?_, .inr ⟨List.eq_nil_of_length_eq_zero absent, rfl⟩⟩
    rw [registers, get_ofValues]
  · obtain ⟨w, given⟩ := h.exists_given one
    refine ⟨ofValues register w, fun r => ?_, .inl given⟩
    rw [registers, get_ofValues]

/-- The members with the name of a field as key. -/
def fields (ms : List Member) : List Member :=
  ms.filter fun m => Field.all.any fun f => m.key == f.name.toList

theorem mem_fields_of_named (named : m.key = f.name.toList) : m ∈ fields ms ↔ m ∈ ms := by
  rw [fields, List.mem_filter, and_iff_left_iff_imp]
  intro _
  exact List.any_eq_true.mpr ⟨f, f.mem_all, beq_iff_eq.mpr named⟩

theorem given_fields (ms : List Member) (f : Field) : given (fields ms) f = given ms f := by
  rw [given, fields, List.filter_filter, given]
  congr 2
  funext m
  by_cases named : m.key = f.name.toList
  · simp only [named, beq_self_eq_true, Bool.true_and, List.any_eq_true]
    exact ⟨f, f.mem_all, beq_self_eq_true _⟩
  · simp [named]

theorem Gives.mem_of_register (h : Gives ms s) (r : Register) :
    ⟨r.name.toList, Nat.toDigits 10 (s.get r).toNat⟩ ∈ ms := by
  apply (mem_given (f := .register r)).mp
  rw [h.1 r]
  exact List.mem_singleton_self _

theorem Gives.mem_of_frameWords (h : Gives ms s) :
    ⟨"stack_frame_words".toList, Nat.toDigits 10 s.frameWords.toNat⟩ ∈ ms ∨
      "stack_frame_words".toList ∉ ms.map Member.key ∧ s.frameWords = 0 := by
  rcases h.2 with given | ⟨given, zero⟩
  · left
    apply (mem_given (f := .frameWords)).mp
    rw [given]
    exact List.mem_singleton_self _
  · right
    have absent := length_given ms .frameWords
    rw [given] at absent
    exact ⟨List.count_eq_zero.mp absent.symm, zero⟩

theorem Gives.of_perm {ms' : List Member} (same : (fields ms').Perm (fields ms)) (h : Gives ms s) :
    Gives ms' s := by
  have perm (f : Field) : (given ms' f).Perm (given ms f) := by
    rw [← given_fields ms', ← given_fields ms]
    exact (same.filter _).map _
  refine ⟨fun r => List.perm_singleton.mp (h.1 r ▸ perm (.register r)), ?_⟩
  rcases h.2 with given | ⟨given, zero⟩
  · exact .inl (List.perm_singleton.mp (given ▸ perm .frameWords))
  · exact .inr ⟨List.perm_nil.mp (given ▸ perm .frameWords), zero⟩

def Field.member (f : Field) (w : UInt16) : Member := ⟨f.name.toList, Nat.toDigits 10 w.toNat⟩

theorem Field.plain_name (f : Field) : Plain f.name.toList := by
  cases f with
  | register r => cases r <;> decide
  | frameWords => decide

theorem Field.readable_member (f : Field) (w : UInt16) : Readable (f.member w) :=
  fun _ _ => inRange_toDigits w

theorem Field.derives_member {before after : List Char} (f : Field) (w : UInt16)
    (blank : AllBlank before ∧ AllBlank gap ∧ AllBlank after) :
    Derives (.member (f.member w)) (before ++ '"' :: (f.name.toList ++ '"' :: ':' ::
      (gap ++ (Nat.toDigits 10 w.toNat ++ after)))) :=
  .member ⟨blank.1, allBlank_nil⟩ f.plain_name.stringText
    (.element blank.2 (.number (whole_toDigits w.toNat).numberText))

/-- An object whose known numbers are in range is read as a snapshot exactly if it has every
register once and the count of frame words at most once as a key, with words in decimal. Otherwise
it is mismatched. The snapshot has the values that the members give, with a zero for a count that
is not given. So nothing but the known members tells what is read, in whatever order they are. -/
theorem object_read_iff {text : String} (object : IsObject ms text.toList)
    (readable : ∀ m ∈ ms, Readable m) :
    ((∃ s, parse text = .ok s) ↔ IsSnapshot ms) ∧
    (¬ IsSnapshot ms → parse text = .error .mismatched) ∧
    (∀ s, parse text = .ok s →
      (∀ r : Register, ⟨r.name.toList, Nat.toDigits 10 (s.get r).toNat⟩ ∈ ms) ∧
      (⟨"stack_frame_words".toList, Nat.toDigits 10 s.frameWords.toNat⟩ ∈ ms ∨
        "stack_frame_words".toList ∉ ms.map Member.key ∧ s.frameWords = 0)) ∧
    ∀ (text' : String) (ms' : List Member), IsObject ms' text'.toList →
      (fields ms').Perm (fields ms) → parse text' = parse text := by
  have ok {s : Snapshot} : parse text = .ok s ↔ Gives ms s := parse_eq_ok_iff object readable
  refine ⟨⟨?_, ?_⟩, ?_, ?_, ?_⟩
  · rintro ⟨s, read⟩
    exact (ok.mp read).isSnapshot
  · intro h
    obtain ⟨s, gives⟩ := h.gives
    exact ⟨s, ok.mpr gives⟩
  · intro h
    exact parse_eq_mismatched object readable fun s gives => h gives.isSnapshot
  · intro s read
    exact ⟨(ok.mp read).mem_of_register, (ok.mp read).mem_of_frameWords⟩
  · intro text' ms' object' same
    have readable' : ∀ m ∈ ms', Readable m := by
      intro m hm f named
      have shared := same.subset ((mem_fields_of_named named).mpr hm)
      exact readable m ((mem_fields_of_named named).mp shared) f named
    by_cases gives : ∃ s, Gives ms s
    · obtain ⟨s, gives⟩ := gives
      rw [ok.mpr gives, (parse_eq_ok_iff object' readable').mpr (gives.of_perm same)]
    · rw [parse_eq_mismatched object readable fun s h => gives ⟨s, h⟩,
        parse_eq_mismatched object' readable' fun s h => gives ⟨s, h.of_perm same.symm⟩]

/-- What is nested in another member is none of the object's, and a key may be escaped. -/
theorem escaped_key_after_nested_one :
    ∃ s, parse ("\x7b\"x\" : [1e999, \x7b\"ip\":\"\\ud83d\\ude00\"\x7d],\"\\u0069p\":1,\"acc\":2," ++
        "\"r1\":0,\"r2\":0,\"r3\":0,\"r4\":0,\"r5\":0,\"r6\":0,\"r7\":0,\"r8\":0,\"sp\":0,\"fp\":0\x7d") =
      .ok s ∧ s.get .ip = 1 ∧ s.get .acc = 2 ∧ s.frameWords = 0 := by
  have tight : AllBlank [] ∧ AllBlank [] := by decide
  have spaced : AllBlank [' '] ∧ AllBlank [] ∧ AllBlank [' '] := by decide
  -- the member that is passed over
  have huge : NumberText ⟨false, ['1'], [], some 999⟩ "1e999".toList :=
    .mk (whole_toDigits 1) .absent (.present (.inl rfl) .absent (whole_toDigits 999).1)
  have lead : unit? "d83d".toList = some (0xD83D, []) := rfl
  have trail : unit? "de00".toList = some (0xDE00, []) := rfl
  have smile : StringText ['😀'] "\\ud83d\\ude00".toList :=
    .cons (.pair lead trail (by decide) (by decide)) .nil
  have nested : Derives (.member ⟨"ip".toList, "\"\\ud83d\\ude00\"".toList⟩)
      "\"ip\":\"\\ud83d\\ude00\"".toList :=
    .member tight (Field.plain_name (.register .ip)).stringText (.element tight (.string smile))
  have list : Derives .value "[1e999, \x7b\"ip\":\"\\ud83d\\ude00\"\x7d]".toList :=
    .array (.nextElement (.element tight (.number huge)) (.lastElement
      (.element ⟨spaced.1, tight.1⟩ (.object (.members (.lastMember nested))))))
  have name : Plain ['x'] := by decide
  have other : Derives (.member ⟨['x'], "[1e999, \x7b\"ip\":\"\\ud83d\\ude00\"\x7d]".toList⟩)
      "\"x\" : [1e999, \x7b\"ip\":\"\\ud83d\\ude00\"\x7d]".toList :=
    .member spaced.2 name.stringText (.element ⟨spaced.1, tight.1⟩ list)
  -- the registers
  have letter : unit? "0069".toList = some (0x69, []) := rfl
  have plain : Plain ['p'] := by decide
  have ip : Derives (.member (Field.member (.register .ip) 1)) "\"\\u0069p\":1".toList :=
    .member tight (.cons (.unit letter (by decide) (by decide)) plain.stringText)
      (.element tight (.number (whole_toDigits 1).numberText))
  have next (r : Register) (w : UInt16) :=
    Field.derives_member (.register r) w ⟨tight.1, tight⟩
  have row := (next .acc 2).nextMember <| (next .r1 0).nextMember <| (next .r2 0).nextMember <|
    (next .r3 0).nextMember <| (next .r4 0).nextMember <| (next .r5 0).nextMember <|
    (next .r6 0).nextMember <| (next .r7 0).nextMember <| (next .r8 0).nextMember <|
    (next .sp 0).nextMember <| (next .fp 0).lastMember
  -- the object of both
  let sent : Snapshot := { ip := 1, acc := 2 }
  let ms : List Member := ⟨['x'], "[1e999, \x7b\"ip\":\"\\ud83d\\ude00\"\x7d]".toList⟩ ::
    Register.all.map fun r => Field.member (.register r) (sent.get r)
  have foreign (f : Field) : ['x'] ≠ f.name.toList := by
    cases f with
    | register r => cases r <;> decide
    | frameWords => decide
  have words : ∀ m ∈ ms, ∀ f : Field, m.key = f.name.toList →
      ∃ w : UInt16, m.value = Nat.toDigits 10 w.toNat := by
    intro m hm f named
    rcases List.mem_cons.mp hm with rfl | hm
    · exact absurd named (foreign f)
    · obtain ⟨r, -, rfl⟩ := List.mem_map.mp hm
      exact ⟨sent.get r, rfl⟩
  have readable : ∀ m ∈ ms, Readable m := by
    intro m hm f named
    obtain ⟨w, written⟩ := words m hm f named
    rw [written]
    exact inRange_toDigits w
  have reading (text : String) (object : IsObject ms text.toList) : ∃ s, parse text = .ok s ∧
      s.get .ip = 1 ∧ s.get .acc = 2 ∧ s.frameWords = 0 := by
    obtain ⟨accepted, -, values, -⟩ := object_read_iff object readable
    obtain ⟨s, read⟩ := accepted.mpr ⟨fun r => by cases r <;> rfl, by decide, words⟩
    obtain ⟨registers, count⟩ := values s read
    refine ⟨s, read, toDigits_inj.mp ?_, toDigits_inj.mp ?_, ?_⟩
    · simpa [ms, sent, get, Register.all, Field.member, Field.name, Register.name]
        using registers .ip
    · simpa [ms, sent, get, Register.all, Field.member, Field.name, Register.name]
        using registers .acc
    · simpa [ms, Register.all, Field.member, Field.name, Register.name] using count
  refine reading _ ⟨[], _, [], tight, .members (other.nextMember (ip.nextMember row)), ?_⟩
  have two : Nat.toDigits 10 2 = ['2'] := rfl
  simp [Field.name, Register.name, two]

end FrameMachine.Snapshot
