import FrameMachine.Text

/-!
# Stores

A store is a range of bytes with 32-bit addresses from zero, and a word is two of them, the high
byte first. An access either succeeds or faults, and a write may fault after part of it is done, so
it hands back the store in both cases. A store that only knows bytes gets its word accesses from
them; a memory is one array of bytes, in which no word is ever half written. Facts about words go
through `Nat`, so that no sum of addresses wraps.
-/
namespace FrameMachine.Word

def high (w : UInt16) : UInt8 := UInt8.ofNat (w.toNat / 256)

def low (w : UInt16) : UInt8 := UInt8.ofNat w.toNat

def ofBytes (hi lo : UInt8) : UInt16 := UInt16.ofNat (hi.toNat * 256 + lo.toNat)

theorem toNat_high (w : UInt16) : (high w).toNat = w.toNat / 256 := by
  have := w.toNat_lt
  simp only [high, UInt8.toNat_ofNat']
  omega

theorem toNat_low (w : UInt16) : (low w).toNat = w.toNat % 256 := by
  simp [low]

theorem toNat_ofBytes (hi lo : UInt8) : (ofBytes hi lo).toNat = hi.toNat * 256 + lo.toNat := by
  have := hi.toNat_lt
  have := lo.toNat_lt
  simp only [ofBytes, UInt16.toNat_ofNat']
  omega

@[simp] theorem ofBytes_high_low (w : UInt16) : ofBytes (high w) (low w) = w := by
  apply UInt16.toNat_inj.mp
  rw [toNat_ofBytes, toNat_high, toNat_low]
  omega

@[simp] theorem high_ofBytes (hi lo : UInt8) : high (ofBytes hi lo) = hi := by
  have := lo.toNat_lt
  apply UInt8.toNat_inj.mp
  rw [toNat_high, toNat_ofBytes]
  omega

@[simp] theorem low_ofBytes (hi lo : UInt8) : low (ofBytes hi lo) = lo := by
  have := lo.toNat_lt
  apply UInt8.toNat_inj.mp
  rw [toNat_low, toNat_ofBytes]
  omega

end FrameMachine.Word

namespace FrameMachine

inductive Fault where
  | outOfBounds (addr : UInt32) (width size : Nat)
  | unknownRegister (name : String)
  | unknownOpcode (opcode : UInt8) (addr : UInt16)
  deriving DecidableEq, Repr

def Fault.message : Fault → String
  | .outOfBounds addr width size =>
    let place := Numeral.upperHex 4 addr.toNat
    s!"access of {width} byte(s) at 0x{place} outside memory of {size} bytes"
  | .unknownRegister name => s!"no such register '{name}'"
  | .unknownOpcode opcode addr =>
    let byte := Numeral.upperHex 2 opcode.toNat
    let place := Numeral.upperHex 4 addr.toNat
    s!"unknown opcode 0x{byte} at 0x{place}"

/-- The bytes from `addr` on, `width` of them, lie inside a store of `size` bytes. -/
def checkRange (addr : UInt32) (width size : Nat) : Except Fault Unit :=
  if addr.toNat + width ≤ size then .ok () else .error (.outOfBounds addr width size)

namespace Store

/-- The range of both bytes is checked before the first is read. -/
def readWordByBytes (size : Nat) (readByte : UInt32 → Except Fault UInt8) (addr : UInt32) :
    Except Fault UInt16 := do
  checkRange addr 2 size
  let hi ← readByte addr
  let lo ← readByte (addr + 1)
  return Word.ofBytes hi lo

/-- The range of both bytes is checked before the first is written. The first stays
written when the second is refused. -/
def writeWordByBytes {σ : Type} (size : σ → Nat)
    (writeByte : UInt32 → UInt8 → EStateM Fault σ Unit) (addr : UInt32) (value : UInt16) :
    EStateM Fault σ Unit := fun s =>
  match checkRange addr 2 (size s) with
  | .error fault => .error fault s
  | .ok () =>
    (do writeByte addr (Word.high value)
        writeByte (addr + 1) (Word.low value)) s

end Store

class Store (σ : Type) where
  size : σ → Nat
  readByte : σ → UInt32 → Except Fault UInt8
  writeByte : UInt32 → UInt8 → EStateM Fault σ Unit
  readWord : σ → UInt32 → Except Fault UInt16 := fun s =>
    Store.readWordByBytes (size s) (readByte s)
  writeWord : UInt32 → UInt16 → EStateM Fault σ Unit :=
    Store.writeWordByBytes size writeByte

/-- A store on loan to a machine: every access is one of the store itself. -/
structure Loan (σ : Type) where
  lent : σ

namespace Loan

variable {σ : Type} [Store σ]

def lending (write : EStateM Fault σ Unit) : EStateM Fault (Loan σ) Unit := fun ⟨s⟩ =>
  match write s with
  | .ok u s => .ok u ⟨s⟩
  | .error fault s => .error fault ⟨s⟩

instance : Store (Loan σ) where
  size s := Store.size s.lent
  readByte s := Store.readByte s.lent
  writeByte addr value := lending (Store.writeByte addr value)
  readWord s := Store.readWord s.lent
  writeWord addr value := lending (Store.writeWord addr value)

end Loan

namespace Store

variable {σ : Type} [Store σ]

/-- Reads on after the bytes in `acc`; addresses go on at zero after the last one. -/
def readOn (s : σ) (addr : UInt32) (acc : Array UInt8) : Nat → Except Fault (Array UInt8)
  | 0 => .ok acc
  | n + 1 => do
    let b ← readByte s addr
    readOn s (addr + 1) (acc.push b) n

def window (s : σ) (addr : UInt32) (length : Nat) : Except Fault String := do
  let bytes ← readOn s addr #[] length
  let shown := bytes.toList.map fun b => "0x" ++ Numeral.lowerHex 2 b.toNat
  return "0x" ++ Numeral.lowerHex 4 addr.toNat ++ ": " ++ " ".intercalate shown

end Store

structure Memory where
  bytes : Array UInt8
  deriving DecidableEq

namespace Memory

/-- The zeros themselves; whether so many can be had is for `allocate?` to say. -/
def zero (size : Nat) : Memory := ⟨Array.replicate size 0⟩

/-- No block of bytes is larger, whatever memory there is. -/
def maxSize : Nat := 0x7FFFFFFFFFFFFFFF

/-- A memory of zeros, if there can be one of that size. -/
def allocate? (size : Nat) : Option Memory := if size ≤ maxSize then some (zero size) else none

def size (m : Memory) : Nat := m.bytes.size

def readByte (m : Memory) (addr : UInt32) : Except Fault UInt8 :=
  if h : addr.toNat < m.bytes.size then .ok m.bytes[addr.toNat]
  else .error (.outOfBounds addr 1 m.size)

def writeByte (addr : UInt32) (value : UInt8) : EStateM Fault Memory Unit := fun ⟨bytes⟩ =>
  if h : addr.toNat < bytes.size then .ok () ⟨bytes.set addr.toNat value h⟩
  else .error (.outOfBounds addr 1 bytes.size) ⟨bytes⟩

def readWord (m : Memory) (addr : UInt32) : Except Fault UInt16 :=
  if h : addr.toNat + 1 < m.bytes.size then
    .ok (Word.ofBytes m.bytes[addr.toNat] m.bytes[addr.toNat + 1])
  else .error (.outOfBounds addr 2 m.size)

def writeWord (addr : UInt32) (value : UInt16) : EStateM Fault Memory Unit := fun ⟨bytes⟩ =>
  if h : addr.toNat + 1 < bytes.size then
    .ok () ⟨(bytes.set addr.toNat (Word.high value)).set (addr.toNat + 1) (Word.low value)
      (by simpa using h)⟩
  else .error (.outOfBounds addr 2 bytes.size) ⟨bytes⟩

instance : Store Memory where
  size := size
  readByte := readByte
  writeByte := writeByte
  readWord := readWord
  writeWord := writeWord

/-- The fault for a block of any length; it shows no width above 255. -/
def blockFault (m : Memory) (addr : UInt32) (length : Nat) : Fault :=
  .outOfBounds addr (min length 255) m.size

def place (bytes : Array UInt8) (index : Nat) : List UInt8 → Array UInt8
  | [] => bytes
  | b :: rest => place (bytes.setIfInBounds index b) (index + 1) rest

/-- The range of the whole image is checked before its first byte is written. -/
def writeImage (start : UInt32) (image : List UInt8) : EStateM Fault Memory Unit := fun m =>
  if start.toNat + image.length ≤ m.size then .ok () ⟨place m.bytes start.toNat image⟩
  else .error (m.blockFault start image.length) m

/-- The memory with the image in it, where it is of no use without. -/
def load (m : Memory) (start : UInt32) (image : List UInt8) : Except Fault Memory :=
  match writeImage start image m with
  | .ok () m => .ok m
  | .error fault _ => .error fault

def slice (m : Memory) (addr : UInt32) (length : Nat) : Except Fault (List UInt8) :=
  if addr.toNat + length ≤ m.size then
    .ok (m.bytes.extract addr.toNat (addr.toNat + length)).toList
  else .error (m.blockFault addr length)

theorem size_zero (n : Nat) : (zero n).size = n := by
  simp [zero, size]

theorem allocate?_of_le {size : Nat} (h : size ≤ maxSize) : allocate? size = some (zero size) :=
  if_pos h

theorem allocate?_of_lt {size : Nat} (h : maxSize < size) : allocate? size = none :=
  if_neg (Nat.not_le_of_lt h)

theorem writeImage_eq (m : Memory) (start : UInt32) (image : List UInt8) : writeImage start image m =
    if start.toNat + image.length ≤ m.size then .ok () ⟨place m.bytes start.toNat image⟩
    else .error (.outOfBounds start (min image.length 255) m.size) m := rfl

theorem load_eq (m : Memory) (start : UInt32) (image : List UInt8) : m.load start image =
    if start.toNat + image.length ≤ m.size then .ok ⟨place m.bytes start.toNat image⟩
    else .error (.outOfBounds start (min image.length 255) m.size) := by
  rw [load, writeImage_eq]
  by_cases room : start.toNat + image.length ≤ m.size
  · rw [if_pos room, if_pos room]
  · rw [if_neg room, if_neg room]

theorem size_place (bytes : Array UInt8) (index : Nat) (image : List UInt8) :
    (place bytes index image).size = bytes.size := by
  induction image generalizing bytes index with
  | nil => rfl
  | cons b rest ih => simp [place, ih]

/-- The word at an address. A byte outside the memory counts as zero. -/
def wordAt (m : Memory) (a : Nat) : UInt16 :=
  Word.ofBytes (m.bytes.getD a 0) (m.bytes.getD (a + 1) 0)

def putWord (m : Memory) (a : Nat) (w : UInt16) : Memory :=
  ⟨(m.bytes.setIfInBounds a (Word.high w)).setIfInBounds (a + 1) (Word.low w)⟩

/-- The word lies at the address with both of its bytes, the high one first. -/
def HasWord (m : Memory) (a : Nat) (w : UInt16) : Prop :=
  m.bytes[a]? = some (Word.high w) ∧ m.bytes[a + 1]? = some (Word.low w)

variable {m n : Memory} {a b k : Nat} {v w : UInt16}

@[simp] theorem size_putWord : (m.putWord a w).size = m.size := by
  simp [putWord, size]

theorem byte_putWord_of_apart (h : k < a ∨ a + 1 < k) :
    (m.putWord a w).bytes[k]? = m.bytes[k]? := by
  have h₁ : a ≠ k := by omega
  have h₂ : a + 1 ≠ k := by omega
  simp [putWord, h₁, h₂]

theorem wordAt_putWord_of_apart (apart : b + 1 < a ∨ a + 1 < b) :
    (m.putWord a w).wordAt b = m.wordAt b := by
  have first := byte_putWord_of_apart (m := m) (w := w) (show b < a ∨ a + 1 < b by omega)
  have second := byte_putWord_of_apart (m := m) (w := w) (show b + 1 < a ∨ a + 1 < b + 1 by omega)
  simp only [wordAt, Array.getD_eq_getD_getElem?, first, second]

theorem hasWord_putWord (h : a + 2 ≤ m.size) : (m.putWord a w).HasWord a w := by
  have h₁ : a < m.bytes.size := by unfold size at h; omega
  have h₂ : a + 1 < m.bytes.size := by unfold size at h; omega
  simp [HasWord, putWord, h₁, h₂]

theorem HasWord.of_bytes (h : m.HasWord a w) (h₁ : n.bytes[a]? = m.bytes[a]?)
    (h₂ : n.bytes[a + 1]? = m.bytes[a + 1]?) : n.HasWord a w :=
  ⟨h₁.trans h.1, h₂.trans h.2⟩

theorem HasWord.putWord (h : m.HasWord b v) (apart : b + 1 < a ∨ a + 1 < b) :
    (m.putWord a w).HasWord b v :=
  h.of_bytes (byte_putWord_of_apart (by omega)) (byte_putWord_of_apart (by omega))

theorem HasWord.wordAt_eq (h : m.HasWord a w) : m.wordAt a = w := by
  simp [wordAt, Array.getD_eq_getD_getElem?, h.1, h.2]

theorem readByte_eq (m : Memory) (addr : UInt32) :
    m.readByte addr = if addr.toNat + 1 ≤ m.size then .ok (m.bytes.getD addr.toNat 0)
      else .error (.outOfBounds addr 1 m.size) := by
  by_cases h : addr.toNat < m.bytes.size
  · rw [if_pos (show addr.toNat + 1 ≤ m.size from h), readByte, dif_pos h]
    simp [h]
  · rw [if_neg (show ¬ addr.toNat + 1 ≤ m.size from h), readByte, dif_neg h]

theorem readWord_eq (m : Memory) (addr : UInt32) :
    m.readWord addr = if addr.toNat + 2 ≤ m.size then .ok (m.wordAt addr.toNat)
      else .error (.outOfBounds addr 2 m.size) := by
  by_cases h : addr.toNat + 1 < m.bytes.size
  · have h₁ : addr.toNat < m.bytes.size := by omega
    rw [if_pos (show addr.toNat + 2 ≤ m.size from h), readWord, dif_pos h]
    simp [wordAt, h, h₁]
  · rw [if_neg (show ¬ addr.toNat + 2 ≤ m.size from h), readWord, dif_neg h]

theorem writeWord_eq (m : Memory) (addr : UInt32) (w : UInt16) :
    writeWord addr w m = if addr.toNat + 2 ≤ m.size then .ok () (m.putWord addr.toNat w)
      else .error (.outOfBounds addr 2 m.size) m := by
  obtain ⟨bytes⟩ := m
  by_cases h : addr.toNat + 1 < bytes.size
  · have h₁ : addr.toNat < bytes.size := by omega
    rw [if_pos (show addr.toNat + 2 ≤ size ⟨bytes⟩ from h)]
    simp [writeWord, putWord, Array.setIfInBounds, h, h₁]
  · rw [if_neg (show ¬ addr.toNat + 2 ≤ size ⟨bytes⟩ from h)]
    simp [writeWord, size, h]

end Memory

end FrameMachine
