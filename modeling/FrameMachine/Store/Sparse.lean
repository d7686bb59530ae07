import FrameMachine.Store.Basic
import Std.Data.TreeMap

/-!
# Stores that know bytes alone

A store that implements byte accesses only and takes its word accesses from them, beside a memory of
the same size and bytes. No access tells the two apart, words at the edge included, as long as the
size is at most `2 ^ 32`: then the address of a second byte never wraps. A sparse store is one of
them while it has no holes, which no access reaches; a word whose second byte is a hole is left half
written.
-/
namespace FrameMachine

namespace Memory

variable {m : Memory} {addr b : UInt32} {v : UInt8} {w : UInt16}

def putByte (m : Memory) (a : Nat) (v : UInt8) : Memory := ⟨m.bytes.setIfInBounds a v⟩

@[simp] theorem size_putByte {a : Nat} : (m.putByte a v).size = m.size := by
  simp [putByte, size]

theorem putByte_putByte {a : Nat} : (m.putByte a (Word.high w)).putByte (a + 1) (Word.low w) =
    m.putWord a w := rfl

theorem writeByte_eq (m : Memory) (addr : UInt32) (v : UInt8) :
    writeByte addr v m = if addr.toNat + 1 ≤ m.size then .ok () (m.putByte addr.toNat v)
      else .error (.outOfBounds addr 1 m.size) m := by
  obtain ⟨bytes⟩ := m
  by_cases h : addr.toNat < bytes.size
  · rw [if_pos (show addr.toNat + 1 ≤ size ⟨bytes⟩ from h)]
    simp [writeByte, putByte, Array.setIfInBounds, h]
  · rw [if_neg (show ¬ addr.toNat + 1 ≤ size ⟨bytes⟩ from h)]
    simp [writeByte, size, h]

theorem readByte_putByte (inside : addr.toNat + 1 ≤ m.size) :
    (m.putByte addr.toNat v).readByte b = if b = addr then .ok v else m.readByte b := by
  have hlt : addr.toNat < m.bytes.size := inside
  rw [readByte_eq, size_putByte, readByte_eq]
  by_cases same : b = addr
  · subst same
    simp [putByte, inside, hlt]
  · have hne : addr.toNat ≠ b.toNat := fun h => same (UInt32.toNat_inj.mp h.symm)
    simp [putByte, same, hne, Array.getD_eq_getD_getElem?]

theorem checkRange_eq_ok_iff {width size : Nat} :
    checkRange addr width size = .ok () ↔ addr.toNat + width ≤ size := by
  unfold checkRange
  split <;> simp_all

/-- The second byte of a word that passes the check has the next address. -/
theorem toNat_add_one (small : m.size ≤ UInt32.size) (h : checkRange addr 2 m.size = .ok ()) :
    (addr + 1).toNat = addr.toNat + 1 := by
  have inside := checkRange_eq_ok_iff.mp h
  rw [UInt32.size] at small
  rw [UInt32.toNat_add]
  simp only [UInt32.reduceToNat]
  omega

theorem readWordByBytes_eq (small : m.size ≤ UInt32.size) (addr : UInt32) :
    Store.readWordByBytes m.size m.readByte addr = m.readWord addr := by
  rw [Store.readWordByBytes, readWord_eq]
  by_cases inside : addr.toNat + 2 ≤ m.size
  · have hcheck : checkRange addr 2 m.size = .ok () := if_pos inside
    have hhigh : m.readByte addr = .ok (m.bytes.getD addr.toNat 0) := by
      rw [readByte_eq, if_pos (by omega)]
    have hlow : m.readByte (addr + 1) = .ok (m.bytes.getD (addr.toNat + 1) 0) := by
      rw [readByte_eq, toNat_add_one small hcheck, if_pos inside]
    rw [if_pos inside, hcheck, hhigh, hlow]
    rfl
  · rw [if_neg inside, checkRange, if_neg inside]
    rfl

theorem writeWordByBytes_eq (small : m.size ≤ UInt32.size) (addr : UInt32) (w : UInt16) :
    Store.writeWordByBytes size writeByte addr w m = writeWord addr w m := by
  rw [Store.writeWordByBytes, writeWord_eq]
  by_cases inside : addr.toNat + 2 ≤ m.size
  · have hcheck : checkRange addr 2 m.size = .ok () := if_pos inside
    have hhigh : writeByte addr (Word.high w) m = .ok () (m.putByte addr.toNat (Word.high w)) := by
      rw [writeByte_eq, if_pos (by omega)]
    have hlow : writeByte (addr + 1) (Word.low w) (m.putByte addr.toNat (Word.high w)) =
        .ok () (m.putWord addr.toNat w) := by
      rw [writeByte_eq, toNat_add_one small hcheck, size_putByte, if_pos inside, putByte_putByte]
    rw [if_pos inside, hcheck]
    change EStateM.bind _ _ m = _
    rw [EStateM.bind, hhigh]
    exact hlow
  · rw [if_neg inside, checkRange, if_neg inside]

end Memory

variable {σ : Type} [Store σ]

/-- The store has the size and the bytes of the memory, as far as addresses go. -/
structure Shows (s : σ) (m : Memory) : Prop where
  size : Store.size s = m.size
  read : ∀ addr, Store.readByte s addr = m.readByte addr

/-- A kind of store that implements byte accesses, which fail at the addresses from its
size on and nowhere else, and leaves its word accesses to these. Its states are those that
are `Valid`. -/
structure ByteOnly (σ : Type) [Store σ] (Valid : σ → Prop) : Prop where
  readInside : ∀ (s : σ) addr, Valid s → addr.toNat < Store.size s →
    ∃ b, Store.readByte s addr = .ok b
  readOutside : ∀ (s : σ) addr, Valid s → Store.size s ≤ addr.toNat →
    Store.readByte s addr = .error (.outOfBounds addr 1 (Store.size s))
  writeInside : ∀ (s : σ) addr v, Valid s → addr.toNat < Store.size s →
    ∃ s', Store.writeByte addr v s = .ok () s' ∧ Valid s' ∧ Store.size s' = Store.size s ∧
      ∀ b, Store.readByte s' b = if b = addr then .ok v else Store.readByte s b
  writeOutside : ∀ (s : σ) addr v, Valid s → Store.size s ≤ addr.toNat →
    ∃ s', Store.writeByte addr v s = .error (.outOfBounds addr 1 (Store.size s)) s' ∧
      Valid s' ∧ Store.size s' = Store.size s ∧ ∀ b, Store.readByte s' b = Store.readByte s b
  readWord : ∀ (s : σ) addr, Store.readWord s addr =
    Store.readWordByBytes (Store.size s) (Store.readByte s) addr
  writeWord : ∀ (s : σ) addr w, Store.writeWord addr w s =
    Store.writeWordByBytes Store.size Store.writeByte addr w s

structure Sparse where
  size : Nat
  holes : List Nat
  cells : Std.TreeMap Nat UInt8

namespace Sparse

def empty (size : Nat) (holes : List Nat) : Sparse := ⟨size, holes, {}⟩

/-- Puts bytes in place without any check. -/
def preload (s : Sparse) (start : Nat) : List UInt8 → Sparse
  | [] => s
  | b :: rest => preload { s with cells := s.cells.insert start b } (start + 1) rest

def Reaches (s : Sparse) (addr : UInt32) : Prop := addr.toNat < s.size ∧ addr.toNat ∉ s.holes

instance (s : Sparse) (addr : UInt32) : Decidable (s.Reaches addr) :=
  inferInstanceAs (Decidable (_ ∧ _))

def readByte (s : Sparse) (addr : UInt32) : Except Fault UInt8 :=
  if s.Reaches addr then .ok (s.cells.getD addr.toNat 0)
  else .error (.outOfBounds addr 1 s.size)

def writeByte (addr : UInt32) (value : UInt8) : EStateM Fault Sparse Unit := fun s =>
  if s.Reaches addr then .ok () { s with cells := s.cells.insert addr.toNat value }
  else .error (.outOfBounds addr 1 s.size) s

instance : Store Sparse where
  size := size
  readByte := readByte
  writeByte := writeByte

theorem getD_insert_cells (s : Sparse) (addr b : UInt32) (v : UInt8) :
    (s.cells.insert addr.toNat v).getD b.toNat 0 =
      if b = addr then v else s.cells.getD b.toNat 0 := by
  rw [Std.TreeMap.getD_insert]
  simp only [Nat.compare_eq_eq, UInt32.toNat_inj, eq_comm (a := addr)]

theorem byteOnly : ByteOnly Sparse fun s => s.holes = [] where
  readInside := by
    intro s addr solid inside
    exact ⟨_, if_pos ⟨inside, by simp [solid]⟩⟩
  readOutside := by
    intro s addr _ outside
    exact if_neg fun reaches => Nat.not_lt_of_le outside reaches.1
  writeInside := by
    intro s addr v solid inside
    refine ⟨_, if_pos ⟨inside, by simp [solid]⟩, solid, rfl, fun b => ?_⟩
    change (if s.Reaches b then Except.ok ((s.cells.insert addr.toNat v).getD b.toNat 0) else _) = _
    rw [getD_insert_cells]
    by_cases same : b = addr
    · subst same
      rw [if_pos ⟨inside, by simp [solid]⟩, if_pos rfl, if_pos rfl]
    · rw [if_neg same, if_neg same]
      rfl
  writeOutside := by
    intro s addr v solid outside
    exact ⟨s, if_neg fun reaches => Nat.not_lt_of_le outside reaches.1, solid, rfl, fun _ => rfl⟩
  readWord _ _ := rfl
  writeWord _ _ _ := rfl

theorem shows_empty (size : Nat) : Shows (empty size []) (Memory.zero size) where
  size := (Memory.size_zero size).symm
  read addr := by
    rw [Memory.readByte_eq, Memory.size_zero]
    by_cases inside : addr.toNat + 1 ≤ size
    · have reaches : (empty size []).Reaches addr := ⟨inside, by simp [empty]⟩
      have hcell : (Memory.zero size).bytes.getD addr.toNat 0 = 0 := by
        have hlt : addr.toNat < size := inside
        simp [Memory.zero, hlt]
      rw [if_pos inside, hcell]
      refine (if_pos reaches).trans ?_
      simp [empty]
    · rw [if_neg inside]
      exact if_neg fun reaches => inside reaches.1

end Sparse

end FrameMachine
