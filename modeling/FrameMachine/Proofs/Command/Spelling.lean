import FrameMachine.Proofs.Command.Items

/-!
# Spelling arguments

Every record of arguments has command lines: options in either form and in any order, those at their
default left out, numbers in either radix where they are addresses, and the program anywhere or
behind a terminator. All of them are read back as the record, and an option given twice is refused
wherever its second copy stands.
-/
namespace FrameMachine.Command

open Numeral (Denotes)

namespace Setting

def limit : Setting → Nat
  | memorySize | steps | dumpLength => UInt64.size
  | loadAddress | dumpMemory => UInt32.size

def isAddress : Setting → Bool
  | loadAddress | dumpMemory => true
  | memorySize | steps | dumpLength => false

/-- What is taken where the option is left out. -/
def default? : Setting → Option Nat
  | memorySize => some 0x10000
  | loadAddress => some 0
  | steps => some 64
  | dumpMemory => none
  | dumpLength => some 16

/-- The texts of a value: decimal digits, or hexadecimal ones behind a mark where it is an address. -/
inductive Spells (s : Setting) (n : Nat) : String → Prop where
  | decimal {digits : List Char} : digits ≠ [] → Denotes 10 digits n → Spells s n (String.ofList digits)
  | hexadecimal {digits : List Char} : s.isAddress = true → digits ≠ [] → Denotes 16 digits n →
      Spells s n (String.ofList ('0' :: 'x' :: digits))

end Setting

namespace Arguments

def value? (args : Arguments) : Setting → Option Nat
  | .memorySize => some args.memorySize.toNat
  | .loadAddress => some args.loadAddress.toNat
  | .steps => some args.steps.toNat
  | .dumpMemory => args.dumpMemory.map UInt32.toNat
  | .dumpLength => some args.dumpLength.toNat

def isSet (args : Arguments) : Flag → Bool
  | .strictOpcodes => args.strictOpcodes
  | .dumpRegisters => args.dumpRegisters
  | .json => args.json

end Arguments

/-- The line is one for the arguments. Nothing is said about the order of its items. -/
structure Line.Writes (l : Line) (args : Arguments) : Prop where
  once : (l.all.map Item.key).Nodup
  program : ∀ text, .program text ∈ l.all ↔ text = args.program
  unhyphened : ∀ text, .program text ∈ l.items → text.toList.head? ≠ some '-'
  written : ∀ s joined text, .setting s joined text ∈ l.items →
    ∃ n, args.value? s = some n ∧ s.Spells n text
  leftOut : ∀ s, .setting s ∉ l.items.map Item.key → args.value? s = s.default?
  flag : ∀ f, .flag f ∈ l.items ↔ args.isSet f = true

/-- The draft says what the items say. -/
structure Draft.Reflects (d : Draft) (items : List Item) : Prop where
  setting : ∀ s n, d.settings.lookup s = some n ↔
    ∃ joined text, .setting s joined text ∈ items ∧ s.read? text = some n
  flag : ∀ f, f ∈ d.flags ↔ .flag f ∈ items
  program : ∀ text, d.program = some text ↔ .program text ∈ items
  pending : d.pending = .nothing

variable {args : Arguments} {l : Line} {d e : Draft} {item : Item} {items : List Item} {s : Setting}
  {f : Flag} {text : String} {n : Nat}

theorem read_of_denotes {limit : Nat} {digits : List Char} (filled : digits ≠ [])
    (value : Denotes 10 digits n) (below : n < limit) : Numeral.read 10 limit digits = .ok n := by
  have room : 0 < limit := Nat.zero_lt_of_lt below
  exact (Numeral.reading_read (by decide) (by decide) room digits).unique (by decide) (by decide) room
    (.accepted (value.isNumeral (by decide) filled) below)

theorem parse_of_body {radix : Nat} {t digits : List Char} {addr : UInt32}
    (shape : Address.Body t radix digits) (filled : digits ≠ [])
    (value : Denotes radix digits addr.toNat) : Address.parse (String.ofList t) = .ok addr := by
  have parsed : Address.parse (String.ofList ([] ++ t ++ [])) = .ok addr :=
    Address.parse_of_denotes nofun nofun shape filled value
  rwa [List.nil_append, List.append_nil] at parsed

theorem Setting.Spells.read? (h : s.Spells n text) (below : n < s.limit) : s.read? text = some n := by
  have address {t : List Char} {addr : UInt32} (parsed : Address.parse (String.ofList t) = .ok addr) :
      (Address.parse (String.ofList t)).toOption.map UInt32.toNat = some addr.toNat := by
    rw [parsed]
    rfl
  have same (small : n < UInt32.size) : (UInt32.ofNat n).toNat = n :=
    UInt32.toNat_ofNat_of_lt' small
  cases h with
  | @decimal digits filled value =>
    cases s with
    | memorySize | steps | dumpLength =>
      have read : Numeral.read 10 UInt64.size digits = .ok n := read_of_denotes filled value below
      rw [Setting.read?, String.toList_ofList, read]
      rfl
    | loadAddress | dumpMemory =>
      rw [← same below] at value ⊢
      exact address (parse_of_body (Address.body_of_denotes value) filled value)
  | @hexadecimal digits marked filled value =>
    cases s with
    | memorySize | steps | dumpLength => cases marked
    | loadAddress | dumpMemory =>
      rw [← same below] at value ⊢
      exact address (parse_of_body (.hexadecimal digits) filled value)

theorem Setting.spells_decimal (s : Setting) (n : Nat) : s.Spells n (Numeral.decimal n) :=
  .decimal Nat.toDigits_ne_nil (Numeral.denotes_toDigits (by decide) n)

theorem Arguments.value?_lt (h : args.value? s = some n) : n < s.limit := by
  cases s with
  | memorySize | steps | dumpLength =>
    obtain rfl := Option.some.inj h
    exact UInt64.toNat_lt _
  | loadAddress =>
    obtain rfl := Option.some.inj h
    exact UInt32.toNat_lt _
  | dumpMemory =>
    obtain ⟨addr, -, rfl⟩ := Option.map_eq_some_iff.mp h
    exact addr.toNat_lt

theorem mem_keys_setting :
    Item.Key.setting s ∈ items.map Item.key ↔ ∃ joined text, Item.setting s joined text ∈ items := by
  constructor
  · intro mem
    obtain ⟨item, here, same⟩ := List.mem_map.mp mem
    cases item with
    | setting s' joined text =>
      cases same
      exact ⟨joined, text, here⟩
    | flag | program => cases same
  · rintro ⟨joined, text, here⟩
    exact List.mem_map_of_mem here

theorem mem_keys_flag : Item.Key.flag f ∈ items.map Item.key ↔ Item.flag f ∈ items := by
  constructor
  · intro mem
    obtain ⟨item, here, same⟩ := List.mem_map.mp mem
    cases item with
    | flag f' =>
      cases same
      exact here
    | setting | program => cases same
  · exact fun here => List.mem_map_of_mem here

theorem mem_keys_program :
    Item.Key.program ∈ items.map Item.key ↔ ∃ text, Item.program text ∈ items := by
  constructor
  · intro mem
    obtain ⟨item, here, same⟩ := List.mem_map.mp mem
    cases item with
    | program text => exact ⟨text, here⟩
    | setting | flag => cases same
  · rintro ⟨text, here⟩
    exact List.mem_map_of_mem here

namespace Draft.Reflects

theorem empty_nil : Draft.empty.Reflects [] := by
  constructor <;> simp [Draft.empty]

theorem enter_fresh (h : d.Reflects items) (sound : item.Sound)
    (fresh : item.key ∉ items.map Item.key) :
    ∃ e, d.enter item = .ok e ∧ e.Reflects (items ++ [item]) := by
  cases item with
  | setting s joined text =>
    obtain ⟨n, read⟩ := sound
    have new {joined : Bool} {text : String} : .setting s joined text ∉ items :=
      fun mem => fresh (mem_keys_setting.mpr ⟨_, _, mem⟩)
    have unset : d.settings.lookup s = none := by
      cases found : d.settings.lookup s with
      | none => rfl
      | some m =>
        obtain ⟨_, _, mem, -⟩ := (h.setting s m).mp found
        exact absurd mem new
    refine ⟨{ d with settings := (s, n) :: d.settings }, ?_, fun s' m => ?_, fun f => ?_,
      fun text => ?_, h.pending⟩
    · simp [enter, store, unset, read]
    · by_cases same : s' = s
      · subst same
        simp only [List.lookup_cons_self, List.mem_append, new, List.mem_singleton, false_or]
        constructor
        · rintro ⟨rfl⟩
          exact ⟨joined, text, rfl, read⟩
        · rintro ⟨_, _, ⟨rfl⟩, read'⟩
          exact read.symm.trans read'
      · have other : (s' == s) = false := beq_false_of_ne same
        simp only [List.lookup_cons, other, h.setting s' m, List.mem_append, List.mem_singleton,
          Item.setting.injEq, same, false_and, or_false]
    · simpa using h.flag f
    · simpa using h.program text
  | flag f =>
    have unset : f ∉ d.flags := fun mem => fresh (mem_keys_flag.mpr ((h.flag f).mp mem))
    refine ⟨{ d with flags := f :: d.flags }, if_neg unset, fun s n => ?_, fun f' => ?_, fun text => ?_,
      h.pending⟩
    · simpa using h.setting s n
    · simp [h.flag f', or_comm]
    · simpa using h.program text
  | program text =>
    have new {text : String} : .program text ∉ items :=
      fun mem => fresh (mem_keys_program.mpr ⟨_, mem⟩)
    have unnamed : d.program = none := by
      cases named : d.program with
      | none => rfl
      | some text => exact absurd ((h.program text).mp named) new
    refine ⟨{ d with program := some text }, ?_, fun s n => ?_, fun f => ?_, fun text' => ?_, h.pending⟩
    · simp [enter, unnamed]
    · simpa using h.setting s n
    · simpa using h.flag f
    · simp [new, eq_comm]

theorem enter_again (h : d.Reflects items) (sound : ∀ item ∈ items, item.Sound)
    (again : item.key ∈ items.map Item.key) (option : item.key ≠ .program) :
    d.enter item = .error .repeated := by
  cases item with
  | setting s joined text =>
    obtain ⟨joined', text', mem⟩ := mem_keys_setting.mp again
    obtain ⟨n, read⟩ := sound _ mem
    have found := (h.setting s n).mpr ⟨joined', text', mem, read⟩
    simp [enter, store, found]
  | flag f => exact if_pos ((h.flag f).mpr (mem_keys_flag.mp again))
  | program => exact absurd rfl option

end Draft.Reflects

theorem nodup_keys_append : ((items ++ [item]).map Item.key).Nodup ↔
    item.key ∉ items.map Item.key ∧ (items.map Item.key).Nodup := by
  rw [List.map_append, List.map_singleton, List.nodup_middle, List.append_nil, List.nodup_cons]

theorem enterAll_of_once (sound : ∀ item ∈ items, item.Sound) (once : (items.map Item.key).Nodup) :
    ∃ d, Draft.enterAll items = .ok d ∧ d.Reflects items := by
  induction items using List.reverseRecOn with
  | nil => exact ⟨Draft.empty, rfl, .empty_nil⟩
  | append_singleton items item ih =>
    obtain ⟨fresh, once⟩ := nodup_keys_append.mp once
    obtain ⟨d, entered, reflects⟩ := ih (fun i mem => sound i (List.mem_append_left _ mem)) once
    have last : item ∈ items ++ [item] := List.mem_append_right _ List.mem_cons_self
    rw [Draft.enterAll_append_singleton, entered]
    exact reflects.enter_fresh (sound item last) fresh

theorem enterAll_of_twice (sound : ∀ item ∈ items, item.Sound)
    (lone : (items.map Item.key).count .program ≤ 1) (twice : ¬ (items.map Item.key).Nodup) :
    Draft.enterAll items = .error .repeated := by
  induction items using List.reverseRecOn with
  | nil => exact absurd List.nodup_nil twice
  | append_singleton items item ih =>
    have earlier : ∀ i ∈ items, i.Sound := fun i mem => sound i (List.mem_append_left _ mem)
    obtain ⟨lone, first⟩ := lone_append_singleton lone
    rw [Draft.enterAll_append_singleton]
    by_cases once : (items.map Item.key).Nodup
    · obtain ⟨d, entered, reflects⟩ := enterAll_of_once earlier once
      have again : item.key ∈ items.map Item.key := by
        by_contra fresh
        exact twice (nodup_keys_append.mpr ⟨fresh, once⟩)
      have option : item.key ≠ .program := fun same => first (same ▸ again) same
      rw [entered]
      exact reflects.enter_again earlier again option
    · rw [ih earlier lone once]
      rfl

namespace Line

theorem setting_mem_all {joined : Bool} :
    .setting s joined text ∈ l.all ↔ .setting s joined text ∈ l.items := by
  simp [all]

theorem flag_mem_all : .flag f ∈ l.all ↔ .flag f ∈ l.items := by
  simp [all]

namespace Writes

theorem sound (h : l.Writes args) (named : args.program ≠ "") : ∀ item ∈ l.all, item.Sound := by
  intro item mem
  cases item with
  | setting s joined text =>
    obtain ⟨n, value, spelt⟩ := h.written s joined text (setting_mem_all.mp mem)
    exact ⟨n, spelt.read? (Arguments.value?_lt value)⟩
  | flag f => trivial
  | program text =>
    rw [(h.program text).mp mem] at *
    exact named

theorem lone (h : l.Writes args) : (l.all.map Item.key).count .program ≤ 1 :=
  List.nodup_iff_count_le_one.mp h.once .program

theorem of_perm (h : l.Writes args) (order : items.Perm l.items) : Writes ⟨items, l.last⟩ args := by
  have all : (Line.all ⟨items, l.last⟩).Perm l.all := order.append_right _
  refine ⟨(all.map Item.key).nodup_iff.mpr h.once, fun text => ?_, fun text mem => ?_,
    fun s joined text mem => ?_, fun s absent => ?_, fun f => ?_⟩
  · rw [all.mem_iff]
    exact h.program text
  · exact h.unhyphened text (order.mem_iff.mp mem)
  · exact h.written s joined text (order.mem_iff.mp mem)
  · exact h.leftOut s (mt (order.map Item.key).mem_iff.mpr absent)
  · exact order.mem_iff.trans (h.flag f)

theorem lookup_or_default (h : l.Writes args) (reflects : d.Reflects l.all) (s : Setting) :
    (d.settings.lookup s).or s.default? = args.value? s := by
  by_cases present : Item.Key.setting s ∈ l.items.map Item.key
  · obtain ⟨joined, text, mem⟩ := mem_keys_setting.mp present
    obtain ⟨n, value, spelt⟩ := h.written s joined text mem
    have found := (reflects.setting s n).mpr
      ⟨joined, text, setting_mem_all.mpr mem, spelt.read? (Arguments.value?_lt value)⟩
    rw [found, value, Option.some_or]
  · have unset : d.settings.lookup s = none := by
      cases found : d.settings.lookup s with
      | none => rfl
      | some n =>
        obtain ⟨joined, text, mem, -⟩ := (reflects.setting s n).mp found
        exact absurd (mem_keys_setting.mpr ⟨joined, text, setting_mem_all.mp mem⟩) present
    rw [unset, Option.none_or, h.leftOut s present]

theorem finish_eq (h : l.Writes args) (reflects : d.Reflects l.all) : d.finish = .ok args := by
  have named : d.program = some args.program :=
    (reflects.program _).mpr ((h.program _).mpr rfl)
  have value {s : Setting} {n k : Nat} (default : s.default? = some k)
      (value : args.value? s = some n) : d.value s k = n := by
    have both := h.lookup_or_default reflects s
    rw [default, value] at both
    rw [Draft.value]
    cases found : d.settings.lookup s with
    | none =>
      rw [found] at both
      exact Option.some.inj both
    | some m =>
      rw [found] at both
      exact Option.some.inj both
  have flag (f : Flag) : decide (f ∈ d.flags) = args.isSet f := by
    rw [Bool.eq_iff_iff, decide_eq_true_iff, reflects.flag, flag_mem_all, h.flag]
  have window : d.settings.lookup .dumpMemory = args.dumpMemory.map UInt32.toNat := by
    have both := h.lookup_or_default reflects .dumpMemory
    rwa [Setting.default?, Option.or_none] at both
  have same : (args.dumpMemory.map UInt32.toNat).map UInt32.ofNat = args.dumpMemory := by
    simp [Function.comp_def]
  have memorySize := value (s := .memorySize) rfl rfl
  have loadAddress := value (s := .loadAddress) rfl rfl
  have steps := value (s := .steps) rfl rfl
  have dumpLength := value (s := .dumpLength) rfl rfl
  rw [Draft.finish, Draft.settle_of_nothing reflects.pending]
  simp only [bind, Except.bind, named, memorySize, loadAddress, steps, dumpLength, window, same, flag,
    UInt64.ofNat_toNat, UInt32.ofNat_toNat]
  rfl

theorem parse_eq (h : l.Writes args) (named : args.program ≠ "") :
    Arguments.parse l.words = .ok args := by
  have sound := h.sound named
  obtain ⟨d, entered, reflects⟩ := enterAll_of_once sound h.once
  rw [parse_words sound h.unhyphened h.lone, entered]
  exact h.finish_eq reflects

/-- A further copy of an option is refused, whatever stands before and behind it. -/
theorem parse_again {before after : List Item} (h : l.Writes args) (named : args.program ≠ "")
    (order : (before ++ after).Perm l.items) (again : item.key ∈ l.items.map Item.key)
    (option : item.key ≠ .program) (sound : item.Sound) :
    Arguments.parse (Line.words ⟨before ++ item :: after, l.last⟩) = .error .repeated := by
  let twice : Line := ⟨before ++ item :: after, l.last⟩
  have all : twice.all.Perm (item :: l.all) :=
    (List.perm_middle.trans (order.cons item)).append_right _
  have keys : (twice.all.map Item.key).Perm (item.key :: l.all.map Item.key) := all.map Item.key
  have lone : (twice.all.map Item.key).count .program ≤ 1 := by
    rw [keys.count_eq, List.count_cons_of_ne option]
    exact h.lone
  have repeated : ¬ (twice.all.map Item.key).Nodup := by
    rw [keys.nodup_iff, List.nodup_cons, Line.all, List.map_append]
    exact fun both => both.1 (List.mem_append_left _ again)
  have sound : ∀ i ∈ twice.all, i.Sound := by
    intro i mem
    rcases List.mem_cons.mp (all.mem_iff.mp mem) with rfl | mem
    · exact sound
    · exact h.sound named i mem
  have unhyphened : ∀ text, .program text ∈ twice.items → text.toList.head? ≠ some '-' := by
    intro text mem
    rcases List.mem_cons.mp (List.perm_middle.mem_iff.mp mem) with rfl | mem
    · exact absurd rfl option
    · exact h.unhyphened text (order.mem_iff.mp mem)
  rw [parse_words sound unhyphened lone, enterAll_of_twice sound lone repeated]
  rfl

end Writes

end Line

theorem Setting.mem_all (s : Setting) : s ∈ Setting.all := by
  cases s <;> decide

theorem Flag.mem_all (f : Flag) : f ∈ Flag.all := by
  cases f <;> decide

/-- Every option that has a value, every flag that is set, and the program behind a terminator. -/
def Arguments.line (args : Arguments) : Line where
  items := (Setting.all.filter fun s => (args.value? s).isSome).map (fun s =>
      .setting s false (Numeral.decimal ((args.value? s).getD 0))) ++
    (Flag.all.filter args.isSet).map .flag
  last := some args.program

theorem Arguments.keys_line (args : Arguments) : args.line.items.map Item.key =
    (Setting.all.filter fun s => (args.value? s).isSome).map Item.Key.setting ++
      (Flag.all.filter args.isSet).map Item.Key.flag := by
  simp only [line, List.map_append, List.map_map]
  rfl

theorem Arguments.line_writes (args : Arguments) : args.line.Writes args := by
  have whole : (Setting.all.map Item.Key.setting ++ Flag.all.map Item.Key.flag ++
      [Item.Key.program]).Nodup := by decide
  refine ⟨?_, fun text => ?_, fun text mem => ?_, fun s joined text mem => ?_, fun s absent => ?_,
    fun f => ?_⟩
  · rw [Line.all, List.map_append, keys_line]
    exact whole.sublist (((List.filter_sublist.map _).append (List.filter_sublist.map _)).append
      (List.Sublist.refl _))
  · simp [Line.all, line]
  · simp [line] at mem
  · rcases List.mem_append.mp mem with mem | mem
    · obtain ⟨s', present, same⟩ := List.mem_map.mp mem
      cases same
      obtain ⟨n, value⟩ := Option.isSome_iff_exists.mp (List.mem_filter.mp present).2
      refine ⟨n, value, ?_⟩
      rw [value, Option.getD_some]
      exact s.spells_decimal n
    · obtain ⟨f, -, same⟩ := List.mem_map.mp mem
      cases same
  · have unset : args.value? s = none := by
      cases value : args.value? s with
      | none => rfl
      | some n =>
        refine absurd ?_ absent
        simp [keys_line, Setting.mem_all, value]
    cases s with
    | dumpMemory => exact unset
    | memorySize | loadAddress | steps | dumpLength => cases unset
  · simp [line, Flag.mem_all]

/-- Every record with a program has a command line, and whatever line is written for it, with its
items in any order, is read as that record. With one more copy of one of its options, wherever it is
put in front of a terminator and whichever value it has, the line is refused. -/
theorem every_record_has_command_lines (args : Arguments) (named : args.program ≠ "") :
    (∃ l : Line, l.Writes args) ∧
    ∀ l : Line, l.Writes args →
      (∀ items : List Item, items.Perm l.items →
        Arguments.parse (Line.words ⟨items, l.last⟩) = .ok args) ∧
      ∀ (before after : List Item) (copy : Item), (before ++ after).Perm l.items →
        copy.key ∈ l.items.map Item.key → copy.key ≠ .program → copy.Sound →
        Arguments.parse (Line.words ⟨before ++ copy :: after, l.last⟩) = .error .repeated := by
  refine ⟨⟨args.line, args.line_writes⟩, fun l writes => ⟨fun items order => ?_, ?_⟩⟩
  · exact (writes.of_perm order).parse_eq named
  · intro before after copy order again option sound
    exact writes.parse_again named order again option sound

/-- A program that looks like an option, an address in hexadecimal, values in both forms, and a
further copy of one of them in front of all else. -/
theorem hyphened_program_and_further_copy :
    let args : Arguments := ⟨"--json", 256, 0, 7, false, true, some 255, 16, false⟩
    let l : Line := ⟨[.setting .steps false "7", .flag .dumpRegisters,
      .setting .dumpMemory true "0x00fF", .setting .memorySize true "256"], some "--json"⟩
    args.program ≠ "" ∧ l.Writes args ∧ l.items.reverse.Perm l.items ∧
    Arguments.parse ["--memory-size=256", "--dump-mem=0x00fF", "--dump-regs", "--steps", "7", "--",
      "--json"] = .ok args ∧
    Item.Key.setting .steps ∈ l.items.map Item.key ∧
    (Item.setting .steps true "+09").key ≠ .program ∧ (Item.setting .steps true "+09").Sound ∧
    Arguments.parse ["--steps=+09", "--steps", "7", "--dump-regs", "--dump-mem=0x00fF",
      "--memory-size=256", "--", "--json"] = .error .repeated := by
  intro args l
  have named : args.program ≠ "" := by decide
  have steps : Setting.Spells .steps 7 "7" := Setting.spells_decimal .steps 7
  have memorySize : Setting.Spells .memorySize 256 "256" := Setting.spells_decimal .memorySize 256
  have dumpMemory : Setting.Spells .dumpMemory 255 "0x00fF" := by
    have last : Numeral.IsDigit 16 'F' 15 := ⟨by decide, Or.inr rfl⟩
    have digits : Denotes 16 ("00f".toList ++ ['F']) (15 * 16 + 15) :=
      (Numeral.denotes_hexDigits 3 15).snoc last
    exact .hexadecimal rfl (List.cons_ne_nil _ _) digits
  have writes : l.Writes args := by
    refine ⟨by decide, fun text => by simp [Line.all, l, args], fun text mem => ?_,
      fun s joined text mem => ?_, fun s absent => ?_, fun f => by cases f <;> decide⟩
    · simp [l] at mem
    · simp only [l, List.mem_cons, Item.setting.injEq, List.not_mem_nil, or_false, reduceCtorEq,
        false_or] at mem
      rcases mem with ⟨rfl, rfl, rfl⟩ | ⟨rfl, rfl, rfl⟩ | ⟨rfl, rfl, rfl⟩
      · exact ⟨7, rfl, steps⟩
      · exact ⟨255, rfl, dumpMemory⟩
      · exact ⟨256, rfl, memorySize⟩
    · cases s with
      | loadAddress | dumpLength => rfl
      | memorySize | steps | dumpMemory => exact absurd (by decide) absent
  have order : l.items.reverse.Perm l.items := List.reverse_perm _
  have again : Item.Key.setting .steps ∈ l.items.map Item.key := by decide
  have option : (Item.setting .steps true "+09").key ≠ .program := by decide
  have sound : (Item.setting .steps true "+09").Sound := ⟨9, by decide⟩
  obtain ⟨read, refused⟩ := (every_record_has_command_lines args named).2 l writes
  exact ⟨named, writes, order, read _ order, again, option, sound,
    refused [] l.items (.setting .steps true "+09") (List.Perm.refl _) again option sound⟩

end FrameMachine.Command
