import FrameMachine.Proofs.Text.Addresses
import FrameMachine.Proofs.Text.Numerals
import FrameMachine.Register
import Mathlib.Data.List.Perm.Basic

/-!
# Views and dumps of the register file

Registers, names and byte offsets reach the same 24 bytes. Every access is one of a plain row of
bytes, at the place of its word, so after any sequence of accesses in any of the three ways all of
them see the same bytes. A dump is read back line by line with the parsers of register names and of
addresses, its lines in any order, so it shows one register file and no other.
-/
namespace FrameMachine

namespace Register

variable {text : String} {r : Register}

/-- The text is the register's name, up to the case of its letters. -/
def Named (r : Register) (text : String) : Prop := SameLetters text.toList r.name.toList

theorem named_iff : r.Named text ↔ text.toList.map Char.toLower = r.name.toList := by
  have small : r.name.toList.map Char.toLower = r.name.toList := by cases r <;> decide
  rw [Named, ← map_toLower_eq_iff, small]

theorem parse_eq_ok_iff : parse text = .ok r ↔ r.Named text := by
  rw [named_iff]
  constructor
  · intro h
    unfold parse at h
    split at h
    · rename_i s found
      obtain rfl := Except.ok.inj h
      have lowered := List.find?_some found
      exact (beq_iff_eq.mp lowered).symm
    · cases h
  · intro lowered
    rw [parse, lowered]
    cases r <;> rfl

theorem parse_eq_error (unknown : ∀ r : Register, ¬ r.Named text) :
    parse text = .error (.unknownRegister text) := by
  cases h : parse text with
  | ok r => exact absurd (parse_eq_ok_iff.mp h) (unknown r)
  | error fault =>
    unfold parse at h
    split at h
    · cases h
    · exact h.symm

end Register

namespace RegisterFile

variable {f g : RegisterFile} {r : Register} {v : UInt16} {k j offset : Nat}

theorem byte_setWordAt (h : k + 1 < 24) (hj : j < 24) : (f.setWordAt k v h).bytes[j] =
    if j = k then Word.high v else if j = k + 1 then Word.low v else f.bytes[j] := by
  by_cases first : j = k
  · subst first
    simp [setWordAt]
  · by_cases second : j = k + 1
    · subst second
      simp [setWordAt]
    · rw [if_neg first, if_neg second]
      simp [setWordAt, Ne.symm first, Ne.symm second]

theorem get_setWordAt_of_even (h : k + 1 < 24) (even : k % 2 = 0) :
    (f.setWordAt k v h).get r = if r.index = k / 2 then v else f.get r := by
  by_cases here : r.index = k / 2
  · have same : r.offset = k := by
      unfold Register.offset
      omega
    subst same
    rw [if_pos here]
    exact wordAt_setWordAt f _ v h
  · rw [if_neg here]
    apply wordAt_setWordAt_of_apart
    unfold Register.offset
    omega

theorem get_setWordAt_of_odd (h : k + 1 < 24) (odd : k % 2 = 1) : (f.setWordAt k v h).get r =
    if r.index = (k - 1) / 2 then Word.ofBytes (Word.high (f.get r)) (Word.high v)
    else if r.index = (k + 1) / 2 then Word.ofBytes (Word.low v) (Word.low (f.get r))
    else f.get r := by
  have second : r.offset + 1 < 24 := r.offset_add_one_lt
  have first : r.offset < 24 := Nat.lt_of_succ_lt second
  have high : (f.setWordAt k v h).bytes[r.offset] = _ := byte_setWordAt h first
  have low : (f.setWordAt k v h).bytes[r.offset + 1] = _ := byte_setWordAt h second
  have word : (f.setWordAt k v h).get r = Word.ofBytes _ _ := congrArg₂ Word.ofBytes high low
  rw [word]
  by_cases lower : r.index = (k - 1) / 2
  · have place : r.offset + 1 = k := by
      unfold Register.offset
      omega
    rw [if_pos lower, if_neg (by omega), if_neg (by omega), if_pos place]
    simp only [get, wordAt, Word.high_ofBytes]
  · have below : r.offset + 1 ≠ k := by
      unfold Register.offset
      omega
    rw [if_neg lower]
    by_cases upper : r.index = (k + 1) / 2
    · have place : r.offset = k + 1 := by
        unfold Register.offset
        omega
      rw [if_pos upper, if_neg (by omega), if_pos place, if_neg (by omega), if_neg (by omega)]
      simp only [get, wordAt, Word.low_ofBytes]
    · have above : r.offset ≠ k ∧ r.offset ≠ k + 1 := by
        unfold Register.offset
        omega
      rw [if_neg upper, if_neg above.1, if_neg above.2, if_neg below, if_neg (by omega)]
      rfl

theorem slotFault_eq (offset : Nat) :
    slotFault offset = .outOfBounds (UInt32.ofNat (offset % UInt32.size)) 2 24 := by
  have cut : UInt32.ofNat (offset % UInt32.size) = UInt32.ofNat offset := by
    apply UInt32.toNat_inj.mp
    simp [UInt32.size]
  rw [slotFault, cut]

theorem readSlot_of_le (f : RegisterFile) (h : offset % UInt32.size ≤ 22) :
    f.readSlot offset = .ok (f.wordAt (offset % UInt32.size) (Nat.succ_lt_succ (Nat.lt_succ_of_le h))) :=
  dif_pos (Nat.succ_lt_succ (Nat.lt_succ_of_le h))

theorem writeSlot_of_le (f : RegisterFile) (v : UInt16) (h : offset % UInt32.size ≤ 22) :
    f.writeSlot offset v =
      .ok (f.setWordAt (offset % UInt32.size) v (Nat.succ_lt_succ (Nat.lt_succ_of_le h))) :=
  dif_pos (Nat.succ_lt_succ (Nat.lt_succ_of_le h))

theorem readSlot_of_gt (f : RegisterFile) (h : ¬ offset % UInt32.size ≤ 22) :
    f.readSlot offset = .error (slotFault offset) := dif_neg (by omega)

theorem writeSlot_of_gt (f : RegisterFile) (v : UInt16) (h : ¬ offset % UInt32.size ≤ 22) :
    f.writeSlot offset v = .error (slotFault offset) := dif_neg (by omega)

theorem toUInt16_eq (w : UInt32) : w.toUInt16 = UInt16.ofNat (w.toNat % 65536) := by
  apply UInt16.toNat_inj.mp
  simp

def wordOf (bytes : List UInt8) (k : Nat) : UInt16 :=
  Word.ofBytes (bytes.getD k 0) (bytes.getD (k + 1) 0)

def putWord (bytes : List UInt8) (k : Nat) (v : UInt16) : List UInt8 :=
  (bytes.set k (Word.high v)).set (k + 1) (Word.low v)

theorem wordOf_toList (f : RegisterFile) (h : k + 1 < 24) :
    wordOf f.bytes.toList k = f.wordAt k h := by
  have first : k < 24 := Nat.lt_of_succ_lt h
  simp [wordOf, wordAt, first, h]

theorem toList_setWordAt (f : RegisterFile) (v : UInt16) (h : k + 1 < 24) :
    (f.setWordAt k v h).bytes.toList = putWord f.bytes.toList k v := by
  simp [setWordAt, putWord, Vector.toList]

end RegisterFile

inductive Access where
  | get (r : Register)
  | set (r : Register) (value : UInt16)
  | getNamed (name : String)
  | setNamed (name : String) (value : UInt32)
  | readSlot (offset : Nat)
  | writeSlot (offset : Nat) (value : UInt16)

namespace Access

def written (f : RegisterFile) : Except Fault RegisterFile → Except Fault (Option UInt16) × RegisterFile
  | .ok g => (.ok none, g)
  | .error fault => (.error fault, f)

def perform (f : RegisterFile) : Access → Except Fault (Option UInt16) × RegisterFile
  | get r => (.ok (some (f.get r)), f)
  | set r value => (.ok none, f.set r value)
  | getNamed name => ((f.getNamed name).map some, f)
  | setNamed name value => written f (f.setNamed name value)
  | readSlot offset => ((f.readSlot offset).map some, f)
  | writeSlot offset value => written f (f.writeSlot offset value)

def performAll (f : RegisterFile) : List Access → List (Except Fault (Option UInt16)) × RegisterFile
  | [] => ([], f)
  | a :: rest =>
    let (answer, f) := a.perform f
    let (answers, f) := performAll f rest
    (answer :: answers, f)

/-- Where the word of an access begins among the bytes, if there is such a word. -/
def place : Access → Except Fault Nat
  | get r | set r _ => .ok (2 * r.index)
  | getNamed name | setNamed name _ => (Register.parse name).map fun r => 2 * r.index
  | readSlot offset | writeSlot offset _ =>
    if offset % UInt32.size ≤ 22 then .ok (offset % UInt32.size)
    else .error (.outOfBounds (UInt32.ofNat (offset % UInt32.size)) 2 24)

def stored? : Access → Option UInt16
  | get _ | getNamed _ | readSlot _ => none
  | set _ value | writeSlot _ value => some value
  | setNamed _ value => some (UInt16.ofNat (value.toNat % 65536))

/-- The access as one of a plain row of bytes, which a refusal leaves alone. -/
def performOn (bytes : List UInt8) (a : Access) : Except Fault (Option UInt16) × List UInt8 :=
  match a.place, a.stored? with
  | .error fault, _ => (.error fault, bytes)
  | .ok k, none => (.ok (some (RegisterFile.wordOf bytes k)), bytes)
  | .ok k, some value => (.ok none, RegisterFile.putWord bytes k value)

def performAllOn (bytes : List UInt8) :
    List Access → List (Except Fault (Option UInt16)) × List UInt8
  | [] => ([], bytes)
  | a :: rest =>
    let (answer, bytes) := a.performOn bytes
    let (answers, bytes) := performAllOn bytes rest
    (answer :: answers, bytes)

theorem performOn_toList (f : RegisterFile) (a : Access) :
    a.performOn f.bytes.toList = ((a.perform f).1, (a.perform f).2.bytes.toList) := by
  have word (r : Register) : RegisterFile.wordOf f.bytes.toList (2 * r.index) = f.get r :=
    f.wordOf_toList r.offset_add_one_lt
  have stored (r : Register) (v : UInt16) :
      (f.set r v).bytes.toList = RegisterFile.putWord f.bytes.toList (2 * r.index) v :=
    f.toList_setWordAt v r.offset_add_one_lt
  cases a with
  | get r => simp only [performOn, place, stored?, perform, word]
  | set r v => simp only [performOn, place, stored?, perform, stored]
  | getNamed name =>
    cases named : Register.parse name with
    | ok r => simp only [performOn, place, stored?, perform, RegisterFile.getNamed, named, Except.map, word]
    | error fault => simp only [performOn, place, perform, RegisterFile.getNamed, named, Except.map]
  | setNamed name v =>
    cases named : Register.parse name with
    | ok r =>
      simp only [performOn, place, stored?, perform, RegisterFile.setNamed, named, Except.map, written,
        stored, RegisterFile.toUInt16_eq]
    | error fault =>
      simp only [performOn, place, perform, RegisterFile.setNamed, named, Except.map, written]
  | readSlot offset =>
    by_cases inside : offset % UInt32.size ≤ 22
    · have here := f.wordOf_toList (Nat.succ_lt_succ (Nat.lt_succ_of_le inside))
      simp only [performOn, place, stored?, perform, if_pos inside, f.readSlot_of_le inside, Except.map,
        here]
    · simp only [performOn, place, perform, if_neg inside, f.readSlot_of_gt inside, Except.map,
        RegisterFile.slotFault_eq]
  | writeSlot offset v =>
    by_cases inside : offset % UInt32.size ≤ 22
    · simp only [performOn, place, stored?, perform, if_pos inside, f.writeSlot_of_le v inside, written,
        RegisterFile.toList_setWordAt]
    · simp only [performOn, place, perform, if_neg inside, f.writeSlot_of_gt v inside, written,
        RegisterFile.slotFault_eq]

theorem performAllOn_toList (f : RegisterFile) (accesses : List Access) :
    performAllOn f.bytes.toList accesses =
      ((performAll f accesses).1, (performAll f accesses).2.bytes.toList) := by
  induction accesses generalizing f with
  | nil => rfl
  | cons a rest ih => simp only [performAllOn, performAll, performOn_toList, ih]

end Access

namespace RegisterFile

/-- A slot is written at every offset up to 22, and at an odd one into halves of two registers. A
name is one of the twelve in any case. Whatever is done to a register file in whichever way, each
answer and every register is what the same accesses make of one row of bytes. -/
theorem views_are_one_store (f : RegisterFile) :
    (∀ (offset : Nat) (v : UInt16),
      let k := offset % UInt32.size
      (k ≤ 22 → ∃ g, f.writeSlot offset v = .ok g ∧ g.readSlot offset = .ok v ∧
        (∀ j (h : j < 24), g.bytes[j] =
          if j = k then Word.high v else if j = k + 1 then Word.low v else f.bytes[j]) ∧
        (k % 2 = 0 → ∀ r, g.get r = if r.index = k / 2 then v else f.get r) ∧
        (k % 2 = 1 → ∀ r, g.get r =
          if r.index = (k - 1) / 2 then Word.ofBytes (Word.high (f.get r)) (Word.high v)
          else if r.index = (k + 1) / 2 then Word.ofBytes (Word.low v) (Word.low (f.get r))
          else f.get r)) ∧
      (22 < k → f.writeSlot offset v = .error (.outOfBounds (UInt32.ofNat k) 2 24) ∧
        f.readSlot offset = .error (.outOfBounds (UInt32.ofNat k) 2 24))) ∧
    (∀ name r, r.Named name → f.getNamed name = .ok (f.get r) ∧
      ∀ w, f.setNamed name w = .ok (f.set r (UInt16.ofNat (w.toNat % 65536)))) ∧
    (∀ name, (∀ r : Register, ¬ r.Named name) → f.getNamed name = .error (.unknownRegister name) ∧
      ∀ w, f.setNamed name w = .error (.unknownRegister name)) ∧
    ∀ accesses,
      let (answers, g) := Access.performAll f accesses
      Access.performAllOn f.bytes.toList accesses = (answers, g.bytes.toList) ∧
        ∀ r, g.get r = wordOf g.bytes.toList (2 * r.index) := by
  refine ⟨fun offset v => ⟨fun inside => ?_, fun outside => ?_⟩, ?_, ?_, ?_⟩
  · have room : offset % UInt32.size + 1 < 24 := Nat.succ_lt_succ (Nat.lt_succ_of_le inside)
    refine ⟨f.setWordAt (offset % UInt32.size) v room, f.writeSlot_of_le v inside, ?_,
      fun j h => byte_setWordAt room h, fun even r => get_setWordAt_of_even room even,
      fun odd r => get_setWordAt_of_odd room odd⟩
    rw [readSlot_of_le _ inside, wordAt_setWordAt]
  · have past := Nat.not_le_of_lt outside
    rw [f.writeSlot_of_gt v past, f.readSlot_of_gt past, slotFault_eq]
    exact ⟨rfl, rfl⟩
  · intro name r named
    have parsed := Register.parse_eq_ok_iff.mpr named
    constructor
    · rw [getNamed, parsed]
      rfl
    · intro w
      rw [setNamed, parsed, ← toUInt16_eq]
      rfl
  · intro name unknown
    have refused := Register.parse_eq_error unknown
    constructor
    · rw [getNamed, refused]
      rfl
    · intro w
      rw [setNamed, refused]
      rfl
  · intro accesses
    exact ⟨Access.performAllOn_toList f accesses,
      fun r => (wordOf_toList _ r.offset_add_one_lt).symm⟩

/-- An offset beyond 32 bits that straddles two registers, one past the last slot, a name in mixed
case and a name of no register. -/
theorem straddled_slot_and_mixed_name :
    let f := initial 256
    let offset := UInt32.size + 21
    offset % UInt32.size ≤ 22 ∧ offset % UInt32.size % 2 = 1 ∧
      (∃ g, f.writeSlot offset 0xABCD = .ok g ∧ g.get .sp = 0x00AB ∧ g.get .fp = 0xCDFE) ∧
    22 < 23 % UInt32.size ∧ f.readSlot 23 = .error (.outOfBounds 23 2 24) ∧
    Register.sp.Named "sP" ∧ f.getNamed "sP" = .ok 0x00FE ∧
    (∀ r : Register, ¬ r.Named "r9") ∧ f.getNamed "r9" = .error (.unknownRegister "r9") := by
  intro f offset
  obtain ⟨slots, named, unknown, -⟩ := views_are_one_store f
  have inside : offset % UInt32.size ≤ 22 := by decide
  have odd : offset % UInt32.size % 2 = 1 := by decide
  have outside : 22 < 23 % UInt32.size := by decide
  have mixed : Register.sp.Named "sP" := Register.parse_eq_ok_iff.mp (by decide)
  have foreign : ∀ r : Register, ¬ r.Named "r9" := by
    intro r h
    have refused : Register.parse "r9" = .error (.unknownRegister "r9") := by decide
    cases refused.symm.trans (Register.parse_eq_ok_iff.mpr h)
  have top : f.get .sp = 0x00FE := by decide +kernel
  obtain ⟨g, written, -, -, -, halves⟩ := (slots offset 0xABCD).1 inside
  refine ⟨inside, odd, ⟨g, written, ?_, ?_⟩, outside, ((slots 23 0).2 outside).2, mixed,
    (named "sP" .sp mixed).1.trans (congrArg _ top), foreign, (unknown "r9" foreign).1⟩
  · exact (halves odd .sp).trans (by decide +kernel)
  · exact (halves odd .fp).trans (by decide +kernel)

end RegisterFile

theorem Register.parse_name (r : Register) : Register.parse r.name = .ok r := by
  cases r <;> rfl

namespace RegisterFile

def lines (text : String) : List String := (text.toList.splitOn '\n').map String.ofList

def splitLine (line : String) : Option (String × String) :=
  match line.toList.dropWhile (· ≠ ':') with
  | ':' :: ' ' :: text => some (String.ofList (line.toList.takeWhile (· ≠ ':')), String.ofList text)
  | _ => none

/-- Sets the register that is named in front of the colon to the address behind it. -/
def enterLine (f : RegisterFile) (line : String) : Option RegisterFile := do
  let (name, text) ← splitLine line
  let value ← (Address.parse text).toOption
  (f.setNamed name value).toOption

variable {f g : RegisterFile} {r s : Register} {ls : List String}

def shownWord (f : RegisterFile) (r : Register) : String :=
  "0x" ++ Numeral.lowerHex 4 (f.get r).toNat

def shownLine (f : RegisterFile) (r : Register) : String := r.name ++ ": " ++ f.shownWord r

theorem parse_shownWord (f : RegisterFile) (r : Register) :
    Address.parse (f.shownWord r) = .ok (f.get r).toUInt32 := by
  have shown := Address.parse_lowerHex 4 (f.get r).toUInt32
  rwa [UInt16.toNat_toUInt32] at shown

theorem newline_not_mem_shownLine : '\n' ∉ (f.shownLine r).toList := by
  have digits : '\n' ∉ Numeral.hexDigits 4 (f.get r).toNat := by
    intro mem
    have solid := (Numeral.denotes_hexDigits 4 (f.get r).toNat).solid (by decide) _ mem
    exact solid (by decide)
  have named : '\n' ∉ r.name.toList := by cases r <;> decide
  simp [shownLine, shownWord, Numeral.lowerHex, digits, named]

theorem dump_eq (f : RegisterFile) : f.dump = "\n".intercalate (Register.all.map f.shownLine) := by
  rw [dump, toList, List.map_map]
  refine congrArg _ (List.map_congr_left fun r _ => ?_)
  apply String.toList_inj.mp
  simp [shownLine, shownWord]

theorem lines_dump (f : RegisterFile) : lines f.dump = Register.all.map f.shownLine := by
  have split : (['\n'].intercalate ((Register.all.map f.shownLine).map String.toList)).splitOn '\n' =
      (Register.all.map f.shownLine).map String.toList := by
    apply List.splitOn_intercalate
    · intro line mem
      simp only [List.map_map, List.mem_map] at mem
      obtain ⟨r, -, rfl⟩ := mem
      exact newline_not_mem_shownLine
    · simp [Register.all]
  have newline : ("\n" : String).toList = ['\n'] := by decide
  rw [lines, dump_eq, String.toList_intercalate, newline, split, List.map_map]
  simp [Function.comp_def]

theorem splitLine_shownLine : splitLine (f.shownLine r) = some (r.name, f.shownWord r) := by
  have head : ∀ c ∈ r.name.toList, decide (c ≠ ':') = true :=
    List.all_eq_true.mp (by cases r <;> decide)
  have whole : (f.shownLine r).toList = r.name.toList ++ ':' :: ' ' :: (f.shownWord r).toList := by
    simp [shownLine]
  rw [splitLine, whole, List.dropWhile_append_of_pos head, List.takeWhile_append_of_pos head]
  simp

theorem enterLine_shownLine : g.enterLine (f.shownLine r) = some (g.set r (f.get r)) := by
  have entered : g.setNamed r.name (f.get r).toUInt32 = .ok (g.set r (f.get r)) := by
    rw [setNamed, Register.parse_name]
    simp [Except.map]
  rw [enterLine, splitLine_shownLine]
  simp [parse_shownWord, entered, Except.toOption]

theorem foldlM_enterLine (f g : RegisterFile) (rs : List Register) :
    (rs.map f.shownLine).foldlM enterLine g =
      some (rs.foldl (fun g r => g.set r (f.get r)) g) := by
  induction rs generalizing g with
  | nil => rfl
  | cons r rs ih =>
    rw [List.map_cons, List.foldlM_cons, enterLine_shownLine]
    exact ih (g.set r (f.get r))

theorem foldlM_enterLine_of_perm (g : RegisterFile) (order : ls.Perm (lines f.dump)) :
    ls.foldlM enterLine g = some f := by
  rw [lines_dump] at order
  obtain ⟨rs, rfl, all⟩ : ∃ rs : List Register, ls = rs.map f.shownLine ∧
      rs.Perm Register.all :=
    (congrFun₂ (List.eq_map_comp_perm f.shownLine) ls Register.all).mpr order
  rw [foldlM_enterLine, Option.some.injEq]
  apply ext_of_get
  intro r
  rw [get_foldl_set, if_pos (all.mem_iff.mpr r.mem_all)]

/-- Every dump has a line for each of the twelve registers, which names it and gives its word as an
address. Entered in any order into any register file they make it the one that was dumped, so equal
dumps come from equal registers. -/
theorem dump_reads_back (f g : RegisterFile) :
    (∃ text : Register → String,
      lines f.dump = Register.all.map (fun r => r.name ++ ": " ++ text r) ∧
      ∀ r, Address.parse (text r) = .ok (f.get r).toUInt32) ∧
    (lines f.dump).length = 12 ∧
    (∀ ls : List String, ls.Perm (lines f.dump) →
      ∃ h : RegisterFile, ls.foldlM enterLine g = some h ∧ h.bytes.toList = f.bytes.toList) ∧
    (f.dump = g.dump ↔ f = g) := by
  refine ⟨⟨f.shownWord, lines_dump f, f.parse_shownWord⟩, ?_, fun ls order => ?_, fun same => ?_,
    congrArg dump⟩
  · rw [lines_dump, List.length_map]
    rfl
  · exact ⟨f, foldlM_enterLine_of_perm g order, rfl⟩
  · have entered := foldlM_enterLine_of_perm f (List.Perm.refl (lines f.dump))
    rw [same, foldlM_enterLine_of_perm f (List.Perm.refl _)] at entered
    exact (Option.some.inj entered).symm

/-- The lines of a dump from the last to the first, entered over other values. -/
theorem dump_read_from_its_end :
    let f := (initial 256).set .acc 0x68AC
    let ls := ["fp: 0x00fe", "sp: 0x00fe", "r8: 0x0000", "r7: 0x0000", "r6: 0x0000", "r5: 0x0000",
      "r4: 0x0000", "r3: 0x0000", "r2: 0x0000", "r1: 0x0000", "acc: 0x68ac", "ip: 0x0000"]
    ls.Perm (lines f.dump) ∧
      ∃ h : RegisterFile, ls.foldlM enterLine ((initial 16).set .r1 0x1234) = some h ∧
        h.bytes.toList = f.bytes.toList := by
  intro f ls
  have backwards : ls = (lines f.dump).reverse := by decide +kernel
  have order : ls.Perm (lines f.dump) := by
    rw [backwards]
    exact List.reverse_perm _
  obtain ⟨-, -, entered, -⟩ := dump_reads_back f ((initial 16).set .r1 0x1234)
  exact ⟨order, entered ls order⟩

end RegisterFile

end FrameMachine
