import FrameMachine.Command.CommandLine
import FrameMachine.Proofs.Text.Addresses
import Mathlib.Data.List.Nodup

/-!
# Items of a command line

A command line is a row of items, each of one or two words, and perhaps a program behind a
terminator. A word is only judged when the next one is seen; what comes of a whole line is the same
as if every item were judged at once.
-/
namespace FrameMachine.Command

/-- The value of an option stands in a word of its own, or behind an equals sign. -/
inductive Item where
  | setting (s : Setting) (joined : Bool) (text : String)
  | flag (f : Flag)
  | program (text : String)
  deriving DecidableEq

inductive Item.Key where
  | setting (s : Setting)
  | flag (f : Flag)
  | program
  deriving DecidableEq

structure Line where
  items : List Item
  /-- The program behind a terminator. -/
  last : Option String

namespace Item

def key : Item → Key
  | setting s _ _ => .setting s
  | flag f => .flag f
  | program _ => .program

def words : Item → List String
  | setting s false text => ["--" ++ s.name, text]
  | setting s true text => ["--" ++ s.name ++ "=" ++ text]
  | flag f => ["--" ++ f.name]
  | program text => [text]

/-- The item can be accepted: its value is one of the option, its program has a name. -/
def Sound : Item → Prop
  | setting s _ text => ∃ n, s.read? text = some n
  | flag _ => True
  | program text => text ≠ ""

end Item

namespace Line

def closing (l : Line) : List String :=
  match l.last with
  | none => []
  | some text => ["--", text]

def words (l : Line) : List String := l.items.flatMap Item.words ++ l.closing

def all (l : Line) : List Item := l.items ++ l.last.toList.map .program

end Line

/-- What an item does to a draft when it is judged at once. -/
def Draft.enter (d : Draft) : Item → Except UsageFault Draft
  | .setting s _ text => d.store s text
  | .flag f => d.raise f
  | .program text =>
    if d.program.isSome then .error .unknownArgument else .ok { d with program := some text }

def Draft.enterAll (items : List Item) : Except UsageFault Draft :=
  items.foldlM Draft.enter Draft.empty

variable {d e : Draft} {item : Item} {items : List Item} {s : Setting} {f : Flag} {text : String}
  {fault : UsageFault} {taken : Except UsageFault Draft}

theorem Draft.enterAll_append_singleton :
    enterAll (items ++ [item]) = enterAll items >>= fun d => d.enter item := by
  simp [enterAll, List.foldlM_append]

theorem ofText_setting (s : Setting) :
    Token.ofText ("--" ++ s.name) = .long s.name.toList none := by
  cases s <;> decide

theorem ofText_flag (f : Flag) : Token.ofText ("--" ++ f.name) = .long f.name.toList none := by
  cases f <;> decide

theorem ofText_joined (s : Setting) (text : String) :
    Token.ofText ("--" ++ s.name ++ "=" ++ text) = .long s.name.toList (some text) := by
  cases s <;> simp [Token.ofText, Setting.name]

theorem ofText_plain (h : text.toList.head? ≠ some '-') : Token.ofText text = .plain text := by
  unfold Token.ofText
  split
  · simp_all
  · simp_all
  · simp_all
  · rfl

theorem not_isNumeral_hyphen {base n : Nat} {cs : List Char} (small : base ≤ 16) :
    ¬ Numeral.IsNumeral base ('-' :: cs) n := by
  rintro ⟨-, value⟩
  obtain ⟨d, digit⟩ := value.isDigit_of_mem (show '-' ∈ '-' :: cs from List.mem_cons_self)
  exact Numeral.not_isDigit_of_lt small (by decide) digit

theorem head?_of_parse {n : UInt32} (h : Address.parse text = .ok n) :
    text.toList.head? ≠ some '-' := by
  intro hyphen
  have trims := Blank.trims_trim text.toList
  obtain ⟨radix, body, shape⟩ := Address.exists_body (Blank.trim text.toList)
  have numeral := (Address.parse_eq_ok_iff trims shape).mp h
  obtain ⟨lead, trail, before, after, split⟩ := trims.split
  generalize Blank.trim text.toList = t at shape split
  rw [split] at hyphen
  have black : '-'.toNat ∉ Blank.whiteSpace := by decide
  match lead, t with
  | c :: lead, _ =>
    obtain rfl : c = '-' := Option.some.inj hyphen
    exact black (before '-' List.mem_cons_self)
  | [], [] =>
    exact black (after '-' (List.mem_of_mem_head? hyphen))
  | [], c :: t =>
    obtain rfl : c = '-' := Option.some.inj hyphen
    cases shape
    exact not_isNumeral_hyphen (by decide) numeral

theorem head?_of_read? {n : Nat} (h : s.read? text = some n) : text.toList.head? ≠ some '-' := by
  have number {limit : Nat} (room : 0 < limit)
      (h : (Numeral.read 10 limit text.toList).toOption = some n) :
      text.toList.head? ≠ some '-' := by
    intro hyphen
    have reading := Numeral.reading_read (by decide : 10 ≤ 16) (by decide) room text.toList
    obtain ⟨rest, whole⟩ := List.head?_eq_some_iff.mp hyphen
    rw [whole] at reading h
    cases read : Numeral.read 10 limit ('-' :: rest) with
    | error defect =>
      rw [read] at h
      cases h
    | ok m =>
      rw [read] at reading
      cases reading with
      | accepted numeral => exact not_isNumeral_hyphen (by decide) numeral
  have address (h : (Address.parse text).toOption.map UInt32.toNat = some n) :
      text.toList.head? ≠ some '-' := by
    obtain ⟨m, read, -⟩ := Option.map_eq_some_iff.mp h
    cases parsed : Address.parse text with
    | error invalid =>
      rw [parsed] at read
      cases read
    | ok m => exact head?_of_parse parsed
  cases s with
  | memorySize | steps | dumpLength => exact number (by decide) h
  | loadAddress | dumpMemory => exact address h

namespace Draft

theorem take_setting (reading : d.terminated = false) (s : Setting) :
    d.take ("--" ++ s.name) = d.settle.map ({ · with pending := .setting s none }) := by
  rw [take, reading, ofText_setting]
  cases s <;> rfl

theorem take_joined (reading : d.terminated = false) (s : Setting) (text : String) :
    d.take ("--" ++ s.name ++ "=" ++ text) = d.settle >>= (·.store s text) := by
  rw [take, reading, ofText_joined]
  cases s <;> rfl

theorem take_flag (reading : d.terminated = false) (f : Flag) :
    d.take ("--" ++ f.name) = d.settle >>= (·.raise f) := by
  rw [take, reading, ofText_flag]
  cases f <;> rfl

theorem take_value (reading : d.terminated = false) (waiting : d.pending = .setting s none)
    (plain : text.toList.head? ≠ some '-') :
    d.take text = .ok { d with pending := .setting s (some text) } := by
  rw [take, reading, ofText_plain plain]
  simp [waiting]

theorem take_program (reading : d.terminated = false) (complete : ∀ s, d.pending ≠ .setting s none)
    (plain : text.toList.head? ≠ some '-') : d.take text = d.position text := by
  rw [take, reading, ofText_plain plain]
  cases pending : d.pending with
  | nothing => rfl
  | program => rfl
  | setting s value =>
    cases value with
    | none => exact absurd pending (complete s)
    | some => rfl

theorem foldlM_take_singleton (d : Draft) (text : String) : [text].foldlM take d = d.take text := by
  rw [List.foldlM_cons]
  exact bind_pure _

theorem store_keeps (h : d.store s text = .ok e) :
    e.pending = d.pending ∧ e.terminated = d.terminated ∧ e.program = d.program := by
  unfold store at h
  split at h
  · cases h
  · split at h
    · cases h
      exact ⟨rfl, rfl, rfl⟩
    · cases h

theorem raise_keeps (h : d.raise f = .ok e) :
    e.pending = d.pending ∧ e.terminated = d.terminated ∧ e.program = d.program := by
  unfold raise at h
  split at h
  · cases h
  · cases h
    exact ⟨rfl, rfl, rfl⟩

theorem enter_keeps (h : d.enter item = .ok e) (option : item.key ≠ .program) :
    e.pending = d.pending ∧ e.terminated = d.terminated ∧ e.program = d.program := by
  cases item with
  | setting => exact store_keeps h
  | flag => exact raise_keeps h
  | program => exact absurd rfl option

theorem settle_keeps (h : d.settle = .ok e) :
    e.pending = .nothing ∧ e.terminated = d.terminated ∧ e.program.isSome = d.hasProgram := by
  unfold settle at h
  unfold hasProgram
  split at h
  · rename_i none
    cases h
    simp [none]
  · cases h
  · rename_i text _ here
    cases h
    simp [here]
  · cases h
  · rename_i s text here
    obtain ⟨pending, terminated, program⟩ := store_keeps h
    simp [here, pending, terminated, program]

theorem settle_of_nothing (h : d.pending = .nothing) : d.settle = .ok d := by
  rw [settle, h]

theorem settle_of_program (pending : d.pending = .program text) (filled : text ≠ "") :
    d.settle = .ok { d with program := some text, pending := .nothing } := by
  unfold settle
  split <;> simp_all

theorem settle_terminated (d : Draft) :
    settle { d with terminated := true } = d.settle.map ({ · with terminated := true }) := by
  obtain ⟨program, settings, flags, pending, terminated⟩ := d
  cases pending with
  | nothing => rfl
  | program text =>
    unfold settle
    split <;> simp_all [Except.map]
  | setting s value =>
    cases value with
    | none => rfl
    | some text =>
      simp only [settle, store]
      split
      · rfl
      · split <;> rfl

theorem finish_terminated (d : Draft) : finish { d with terminated := true } = d.finish := by
  rw [finish, finish, settle_terminated]
  cases d.settle <;> rfl

theorem finish_eq (d : Draft) : d.finish = d.settle >>= finish := by
  cases h : d.settle with
  | error fault =>
    rw [finish, h]
    rfl
  | ok e =>
    have settled := settle_of_nothing (settle_keeps h).1
    change d.finish = e.finish
    rw [finish, finish, h, settled]

end Draft

/-- The draft after the words of the items. Its last word is still to be judged; once it is, all is as
if the items had been judged at once. -/
structure Draft.Holds (d : Draft) (items : List Item) : Prop where
  reading : d.terminated = false
  complete : ∀ s, d.pending ≠ .setting s none
  program : d.hasProgram = true ↔ Item.Key.program ∈ items.map Item.key
  judged : d.settle = Draft.enterAll items

/-- How far taking the words of the items comes. What it fails with is what judging the items at once
fails with. -/
inductive Late (items : List Item) : Except UsageFault Draft → Prop where
  | refused {fault : UsageFault} : Draft.enterAll items = .error fault → Late items (.error fault)
  | taken {d : Draft} : d.Holds items → Late items (.ok d)

theorem holds_empty : Draft.empty.Holds [] :=
  ⟨rfl, nofun, by simp [Draft.hasProgram, Draft.empty], rfl⟩

theorem program_mem_keys_append (option : item.key ≠ .program) :
    Item.Key.program ∈ (items ++ [item]).map Item.key ↔ Item.Key.program ∈ items.map Item.key := by
  simp [option.symm]

namespace Draft.Holds

theorem enterAll_append (h : d.Holds items) (settled : d.settle = .ok e) :
    enterAll (items ++ [item]) = e.enter item := by
  rw [enterAll_append_singleton, ← h.judged, settled]
  rfl

theorem late_of_refused (h : d.Holds items) (refused : d.settle = .error fault) :
    Late (items ++ [item]) (.error fault) := by
  refine .refused ?_
  rw [enterAll_append_singleton, ← h.judged, refused]
  rfl

theorem late_of_option (h : d.Holds items) (option : item.key ≠ .program) :
    Late (items ++ [item]) (d.settle >>= fun e => e.enter item) := by
  cases settled : d.settle with
  | error fault => exact h.late_of_refused settled
  | ok e =>
    have judged : enterAll (items ++ [item]) = e.enter item := h.enterAll_append settled
    change Late _ (e.enter item)
    cases entered : e.enter item with
    | error fault => exact .refused (judged.trans entered)
    | ok e' =>
      obtain ⟨pending, terminated, named⟩ := settle_keeps settled
      obtain ⟨pending', terminated', named'⟩ := enter_keeps entered option
      have nothing : e'.pending = .nothing := pending'.trans pending
      refine .taken ⟨terminated'.trans (terminated.trans h.reading), ?_, ?_, ?_⟩
      · rw [nothing]
        exact nofun
      · rw [program_mem_keys_append option, ← h.program, ← named, ← named', hasProgram, nothing]
      · rw [settle_of_nothing nothing, judged, entered]

theorem late_of_value (h : d.Holds items) (plain : text.toList.head? ≠ some '-') :
    Late (items ++ [.setting s false text])
      (d.settle.map ({ · with pending := .setting s none }) >>= fun d => d.take text) := by
  cases settled : d.settle with
  | error fault => exact h.late_of_refused settled
  | ok e =>
    have judged : enterAll (items ++ [.setting s false text]) = e.store s text :=
      h.enterAll_append settled
    have option : (Item.setting s false text).key ≠ .program := nofun
    obtain ⟨pending, terminated, named⟩ := settle_keeps settled
    have reading : e.terminated = false := terminated.trans h.reading
    have value : take { e with pending := .setting s none } text =
        .ok { e with pending := .setting s (some text) } := take_value reading rfl plain
    change Late _ (take { e with pending := .setting s none } text)
    rw [value]
    refine .taken ⟨reading, nofun, ?_, ?_⟩
    · rw [program_mem_keys_append option, ← h.program, ← named]
      rfl
    · rw [judged, settle, ← pending]

theorem late_of_program (h : d.Holds items) (filled : text ≠ "")
    (first : Item.Key.program ∉ items.map Item.key) :
    Late (items ++ [.program text]) (d.position text) := by
  have unnamed : d.hasProgram = false := Bool.eq_false_iff.mpr (mt h.program.mp first)
  rw [position, unnamed]
  cases settled : d.settle with
  | error fault => exact h.late_of_refused settled
  | ok e =>
    have judged : enterAll (items ++ [.program text]) = e.enter (.program text) :=
      h.enterAll_append settled
    obtain ⟨pending, terminated, named⟩ := settle_keeps settled
    rw [unnamed] at named
    refine .taken (d := { e with pending := .program text })
      ⟨terminated.trans h.reading, nofun, ?_, ?_⟩
    · simp [hasProgram, Item.key]
    · rw [judged, enter, named, settle_of_program rfl filled, ← pending]
      rfl

theorem finish_of_terminator (h : d.Holds items) (filled : text ≠ "")
    (first : Item.Key.program ∉ items.map Item.key) :
    ["--", text].foldlM take d >>= finish = enterAll (items ++ [.program text]) >>= finish := by
  have unnamed : d.hasProgram = false := Bool.eq_false_iff.mpr (mt h.program.mp first)
  have ended : d.take "--" = .ok { d with terminated := true } := by
    rw [take, h.reading]
    rfl
  have unnamed' : hasProgram { d with terminated := true } = false := unnamed
  have behind : take { d with terminated := true } text =
      d.settle.map ({ · with pending := .program text, terminated := true }) := by
    rw [take, if_pos rfl, position, unnamed', settle_terminated]
    cases d.settle <;> rfl
  have words : ["--", text].foldlM take d =
      d.settle.map ({ · with pending := .program text, terminated := true }) := by
    rw [List.foldlM_cons, ended]
    exact (foldlM_take_singleton _ text).trans behind
  rw [words]
  cases settled : d.settle with
  | error fault =>
    rw [enterAll_append_singleton, ← h.judged, settled]
    rfl
  | ok e =>
    have judged : enterAll (items ++ [.program text]) = e.enter (.program text) :=
      h.enterAll_append settled
    obtain ⟨pending, -, named⟩ := settle_keeps settled
    rw [unnamed] at named
    have entered : e.enter (.program text) = .ok { e with program := some text } := by
      rw [enter, named]
      rfl
    rw [judged, entered]
    change finish { e with pending := .program text, terminated := true } =
      finish { e with program := some text }
    rw [finish_eq, settle_of_program rfl filled, ← pending]
    exact finish_terminated { e with program := some text }
end Draft.Holds

theorem Late.words (late : Late items taken) (sound : item.Sound)
    (unhyphened : ∀ text, item = .program text → text.toList.head? ≠ some '-')
    (lone : Item.Key.program ∈ items.map Item.key → item.key ≠ .program) :
    Late (items ++ [item]) (taken >>= fun d => item.words.foldlM Draft.take d) := by
  cases late with
  | refused judged =>
    refine .refused ?_
    rw [Draft.enterAll_append_singleton, judged]
    rfl
  | @taken d h =>
    change Late _ (item.words.foldlM Draft.take d)
    cases item with
    | flag f =>
      rw [Item.words, Draft.foldlM_take_singleton, Draft.take_flag h.reading]
      exact h.late_of_option nofun
    | setting s joined text =>
      cases joined with
      | true =>
        rw [Item.words, Draft.foldlM_take_singleton, Draft.take_joined h.reading]
        exact h.late_of_option nofun
      | false =>
        obtain ⟨n, read⟩ := sound
        rw [Item.words, List.foldlM_cons, Draft.take_setting h.reading]
        simp only [Draft.foldlM_take_singleton]
        exact h.late_of_value (head?_of_read? read)
    | program text =>
      rw [Item.words, Draft.foldlM_take_singleton,
        Draft.take_program h.reading h.complete (unhyphened text rfl)]
      exact h.late_of_program sound fun mem => lone mem rfl

theorem Late.finish (late : Late items taken) :
    taken >>= Draft.finish = Draft.enterAll items >>= Draft.finish := by
  cases late with
  | refused judged => rw [judged]
  | @taken d h =>
    rw [← h.judged]
    exact d.finish_eq

theorem Late.finish_of_terminator (late : Late items taken) (filled : text ≠ "")
    (first : Item.Key.program ∉ items.map Item.key) :
    (taken >>= fun d => ["--", text].foldlM Draft.take d) >>= Draft.finish =
      Draft.enterAll (items ++ [.program text]) >>= Draft.finish := by
  cases late with
  | refused judged =>
    rw [Draft.enterAll_append_singleton, judged]
    rfl
  | taken h => exact h.finish_of_terminator filled first

theorem lone_append_singleton (lone : ((items ++ [item]).map Item.key).count .program ≤ 1) :
    (items.map Item.key).count .program ≤ 1 ∧
      (Item.Key.program ∈ items.map Item.key → item.key ≠ .program) := by
  rw [List.map_append, List.count_append] at lone
  refine ⟨Nat.le_of_add_right_le lone, fun mem same => ?_⟩
  have before := List.count_pos_iff.mpr mem
  simp only [List.map_singleton, same, List.count_singleton_self] at lone
  omega

/-- Words are judged late, but not differently. -/
theorem late_words (sound : ∀ item ∈ items, item.Sound)
    (unhyphened : ∀ text, .program text ∈ items → text.toList.head? ≠ some '-')
    (lone : (items.map Item.key).count .program ≤ 1) :
    Late items ((items.flatMap Item.words).foldlM Draft.take Draft.empty) := by
  induction items using List.reverseRecOn with
  | nil => exact .taken holds_empty
  | append_singleton items item ih =>
    obtain ⟨lone, first⟩ := lone_append_singleton lone
    have earlier : Late items _ := ih (fun i mem => sound i (List.mem_append_left _ mem))
      (fun text mem => unhyphened text (List.mem_append_left _ mem)) lone
    have last : item ∈ items ++ [item] := List.mem_append_right _ List.mem_cons_self
    rw [List.flatMap_append, List.flatMap_singleton, List.foldlM_append]
    refine earlier.words (sound item last) ?_ first
    rintro text rfl
    exact unhyphened text last

/-- A whole line is answered as if its items were judged at once. -/
theorem parse_words {l : Line} (sound : ∀ item ∈ l.all, item.Sound)
    (unhyphened : ∀ text, .program text ∈ l.items → text.toList.head? ≠ some '-')
    (lone : (l.all.map Item.key).count .program ≤ 1) :
    Arguments.parse l.words = Draft.enterAll l.all >>= Draft.finish := by
  obtain ⟨items, last⟩ := l
  cases last with
  | none =>
    have all : Line.all ⟨items, none⟩ = items := List.append_nil items
    have words : Line.words ⟨items, none⟩ = items.flatMap Item.words := List.append_nil _
    rw [all] at sound lone ⊢
    rw [Arguments.parse, words]
    exact (late_words sound unhyphened lone).finish
  | some text =>
    have words : Line.words ⟨items, some text⟩ = items.flatMap Item.words ++ ["--", text] := rfl
    have last : .program text ∈ Line.all ⟨items, some text⟩ :=
      List.mem_append_right _ List.mem_cons_self
    obtain ⟨lone, first⟩ := lone_append_singleton lone
    have late : Late items _ :=
      late_words (fun i mem => sound i (List.mem_append_left _ mem)) unhyphened lone
    rw [Arguments.parse, words, List.foldlM_append]
    exact late.finish_of_terminator (sound _ last) fun mem => first mem rfl

end FrameMachine.Command
