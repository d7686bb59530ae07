import FrameMachine.Store.Basic

/-!
# Registers

The twelve registers in the order of their slots, and the register file, which holds them in 24
bytes. Operand bytes name a register modulo twelve, and texts name it in any ASCII case. Registers,
names and byte offsets are three ways to the same bytes; an odd offset straddles two registers.
-/
namespace FrameMachine

inductive Register where
  | ip | acc | r1 | r2 | r3 | r4 | r5 | r6 | r7 | r8 | sp | fp
  deriving DecidableEq, Repr

namespace Register

def all : List Register := [ip, acc, r1, r2, r3, r4, r5, r6, r7, r8, sp, fp]

/-- What a call saves, in the order in which it is pushed. -/
def saved : List Register := [r1, r2, r3, r4, r5, r6, r7, r8]

def index : Register → Nat
  | ip => 0 | acc => 1 | r1 => 2 | r2 => 3 | r3 => 4 | r4 => 5
  | r5 => 6 | r6 => 7 | r7 => 8 | r8 => 9 | sp => 10 | fp => 11

/-- Where the register's word begins in the register file. -/
def offset (r : Register) : Nat := 2 * r.index

theorem index_lt (r : Register) : r.index < 12 := by
  cases r <;> decide

theorem offset_add_one_lt (r : Register) : r.offset + 1 < 24 := by
  have := r.index_lt
  simp only [offset]
  omega

def ofIndex? (i : Nat) : Option Register := all[i]?

theorem ofIndex?_eq_some_iff {i : Nat} {r : Register} : ofIndex? i = some r ↔ r.index = i := by
  constructor
  · intro h
    obtain ⟨inside, rfl⟩ := List.getElem?_eq_some_iff.mp h
    revert i
    decide
  · rintro rfl
    cases r <;> rfl

theorem exists_index {i : Nat} (h : i < 12) : ∃ r : Register, r.index = i :=
  ⟨all[i], ofIndex?_eq_some_iff.mp (List.getElem?_eq_getElem h)⟩

theorem mem_all (r : Register) : r ∈ all := by
  cases r <;> decide

def name : Register → String
  | ip => "ip" | acc => "acc" | r1 => "r1" | r2 => "r2" | r3 => "r3" | r4 => "r4"
  | r5 => "r5" | r6 => "r6" | r7 => "r7" | r8 => "r8" | sp => "sp" | fp => "fp"

/-- A refused name is reported as it was given. -/
def parse (text : String) : Except Fault Register :=
  match all.find? fun r => r.name.toList == text.toList.map Char.toLower with
  | some r => .ok r
  | none => .error (.unknownRegister text)

/-- The slot offset that an operand byte stands for. Every byte names a register. -/
def operandOffset (operand : UInt8) : Nat := 2 * (operand.toNat % 12)

end Register

structure RegisterFile where
  bytes : Vector UInt8 24
  deriving DecidableEq

namespace RegisterFile

def wordAt (f : RegisterFile) (k : Nat) (h : k + 1 < 24) : UInt16 :=
  Word.ofBytes f.bytes[k] f.bytes[k + 1]

def setWordAt (f : RegisterFile) (k : Nat) (value : UInt16) (h : k + 1 < 24) : RegisterFile :=
  ⟨(f.bytes.set k (Word.high value)).set (k + 1) (Word.low value)⟩

def get (f : RegisterFile) (r : Register) : UInt16 := f.wordAt r.offset r.offset_add_one_lt

def set (f : RegisterFile) (r : Register) (value : UInt16) : RegisterFile :=
  f.setWordAt r.offset value r.offset_add_one_lt

/-- All zero but `sp` and `fp`, which point to the top word of a store of the given size. -/
def initial (storeSize : Nat) : RegisterFile :=
  let top := UInt16.ofNat storeSize - 2
  (RegisterFile.mk (Vector.replicate 24 0)).set .sp top |>.set .fp top

def getNamed (f : RegisterFile) (name : String) : Except Fault UInt16 :=
  (Register.parse name).map f.get

/-- Of a wider value the low word is stored. -/
def setNamed (f : RegisterFile) (name : String) (value : UInt32) : Except Fault RegisterFile :=
  (Register.parse name).map fun r => f.set r value.toUInt16

/-- Offsets are cut to 32 bits before they are checked, and reported so. -/
def slotFault (offset : Nat) : Fault := .outOfBounds (UInt32.ofNat offset) 2 24

def readSlot (f : RegisterFile) (offset : Nat) : Except Fault UInt16 :=
  if h : offset % UInt32.size + 1 < 24 then .ok (f.wordAt (offset % UInt32.size) h)
  else .error (slotFault offset)

def writeSlot (f : RegisterFile) (offset : Nat) (value : UInt16) : Except Fault RegisterFile :=
  if h : offset % UInt32.size + 1 < 24 then .ok (f.setWordAt (offset % UInt32.size) value h)
  else .error (slotFault offset)

def toList (f : RegisterFile) : List (Register × UInt16) :=
  Register.all.map fun r => (r, f.get r)

@[simp] theorem wordAt_setWordAt (f : RegisterFile) (k : Nat) (value : UInt16) (h : k + 1 < 24) :
    (f.setWordAt k value h).wordAt k h = value := by
  simp [wordAt, setWordAt]

theorem wordAt_setWordAt_of_apart (f : RegisterFile) {k l : Nat} (value : UInt16)
    (hk : k + 1 < 24) (hl : l + 1 < 24) (apart : k + 1 < l ∨ l + 1 < k) :
    (f.setWordAt k value hk).wordAt l hl = f.wordAt l hl := by
  have h₁ : k ≠ l := by omega
  have h₂ : k + 1 ≠ l := by omega
  have h₃ : k ≠ l + 1 := by omega
  simp [wordAt, setWordAt, h₁, h₂, h₃]

@[simp] theorem get_set_self (f : RegisterFile) (r : Register) (value : UInt16) :
    (f.set r value).get r = value := wordAt_setWordAt f _ value _

theorem get_set_of_ne (f : RegisterFile) {r s : Register} (value : UInt16) (h : r ≠ s) :
    (f.set r value).get s = f.get s := by
  apply wordAt_setWordAt_of_apart
  revert h
  cases r <;> cases s <;> decide

variable {f g : RegisterFile} {r : Register} {v w : UInt16} {offset : Nat}

@[simp] theorem set_set : (f.set r v).set r w = f.set r w := by
  have apart : r.offset + 1 ≠ r.offset := Nat.succ_ne_self _
  simp only [set, setWordAt, mk.injEq]
  rw [Vector.set_comm _ _ apart, Vector.set_set, Vector.set_set]

@[simp] theorem set_get : f.set r (f.get r) = f := by
  obtain ⟨bytes⟩ := f
  simp only [set, get, wordAt, setWordAt, Word.high_ofBytes, Word.low_ofBytes,
    Vector.set_getElem_self]

theorem ext_of_get (h : ∀ r, f.get r = g.get r) : f = g := by
  have words : ∀ (i : Nat) (hi : i < 12),
      Word.ofBytes f.bytes[2 * i] f.bytes[2 * i + 1] =
        Word.ofBytes g.bytes[2 * i] g.bytes[2 * i + 1] := by
    intro i hi
    obtain ⟨r, rfl⟩ := Register.exists_index hi
    exact h r
  have bytes : f.bytes = g.bytes := by
    apply Vector.ext
    intro k hk
    have half : k / 2 < 12 := by omega
    have high := congrArg Word.high (words (k / 2) half)
    have low := congrArg Word.low (words (k / 2) half)
    rw [Word.high_ofBytes, Word.high_ofBytes] at high
    rw [Word.low_ofBytes, Word.low_ofBytes] at low
    rcases Nat.mod_two_eq_zero_or_one k with even | odd
    · have at_high : 2 * (k / 2) = k := by omega
      simpa only [at_high] using high
    · have at_low : 2 * (k / 2) + 1 = k := by omega
      simpa only [at_low] using low
  obtain ⟨_⟩ := f
  obtain ⟨_⟩ := g
  exact congrArg RegisterFile.mk bytes

theorem get_foldl_set (value : Register → UInt16) (rs : List Register) (f : RegisterFile) :
    (rs.foldl (fun f r => f.set r (value r)) f).get r = if r ∈ rs then value r else f.get r := by
  induction rs generalizing f with
  | nil => rfl
  | cons s rs ih =>
    rw [List.foldl_cons, ih]
    by_cases later : r ∈ rs
    · rw [if_pos later, if_pos (List.mem_cons_of_mem s later)]
    · rw [if_neg later]
      by_cases here : r = s
      · subst here
        rw [if_pos List.mem_cons_self, get_set_self]
      · rw [if_neg (List.not_mem_cons_of_ne_of_not_mem here later), get_set_of_ne _ _ (Ne.symm here)]

theorem cut_of_inside (inside : offset + 1 < 24) : offset % UInt32.size = offset :=
  Nat.mod_eq_of_lt (by simp only [UInt32.size]; omega)

theorem readSlot_of_inside (f : RegisterFile) (inside : offset + 1 < 24) :
    f.readSlot offset = .ok (f.wordAt offset inside) := by
  simp only [readSlot, cut_of_inside inside, dif_pos inside]

theorem writeSlot_of_inside (f : RegisterFile) (v : UInt16) (inside : offset + 1 < 24) :
    f.writeSlot offset v = .ok (f.setWordAt offset v inside) := by
  simp only [writeSlot, cut_of_inside inside, dif_pos inside]

end RegisterFile

def RegisterFile.dump (f : RegisterFile) : String :=
  let line : Register × UInt16 → String := fun (r, value) =>
    r.name ++ ": 0x" ++ Numeral.lowerHex 4 value.toNat
  "\n".intercalate (f.toList.map line)

end FrameMachine
