import FrameMachine.Proofs.Text.Addresses
import FrameMachine.Register
import FrameMachine.Store.Basic

/-!
# Windows as text

A window shows the bytes of a slice, and its text tells them apart: it can be read back to its
address and its bytes. It goes on at address zero after the last 32-bit address, so it can only
leave a memory that does not take up all of them. The two ways of reading a stretch accept the same
stretches, save for empty ones, but name the bounds that they miss differently.
-/
namespace FrameMachine.Memory

/-- Every address of the window is one of the memory, also those after a wrap. -/
def HoldsWindow (m : Memory) (addr : UInt32) (length : Nat) : Prop :=
  ∀ i < length, (addr + UInt32.ofNat i).toNat < m.size

variable {m : Memory} {addr : UInt32} {n : Nat}

theorem holdsWindow_succ :
    m.HoldsWindow addr (n + 1) ↔ addr.toNat < m.size ∧ m.HoldsWindow (addr + 1) n := by
  have hzero : addr + UInt32.ofNat 0 = addr := UInt32.add_zero addr
  have hsucc : ∀ i, addr + UInt32.ofNat (i + 1) = addr + 1 + UInt32.ofNat i := by
    intro i
    rw [UInt32.ofNat_add, UInt32.add_comm (UInt32.ofNat i), ← UInt32.add_assoc]
    rfl
  unfold HoldsWindow
  rw [Nat.forall_lt_succ_left, hzero]
  simp only [hsucc]

theorem holdsWindow_iff_mod : m.HoldsWindow addr n ↔
    ∀ i < n, (addr.toNat + i) % UInt32.size < m.size := by
  have sum : ∀ i, (addr + UInt32.ofNat i).toNat = (addr.toNat + i) % UInt32.size := by
    intro i
    rw [UInt32.toNat_add, UInt32.toNat_ofNat']
    unfold UInt32.size
    omega
  unfold HoldsWindow
  simp only [sum]

/-- Nothing wraps in a memory that ends before the addresses do. -/
theorem holdsWindow_iff (short : m.size < UInt32.size) :
    m.HoldsWindow addr n ↔ n = 0 ∨ addr.toNat + n ≤ m.size := by
  have haddr := addr.toNat_lt
  rw [holdsWindow_iff_mod]
  unfold UInt32.size at short ⊢
  constructor
  · intro inside
    apply Classical.byContradiction
    intro outside
    by_cases begins : addr.toNat < m.size
    · -- the first address past the end
      have last := inside (m.size - addr.toNat) (by omega)
      omega
    · have first := inside 0 (by omega)
      omega
  · rintro (rfl | fits) i hi
    · exact absurd hi (Nat.not_lt_zero i)
    · omega

theorem exists_readOn_iff (acc : Array UInt8) :
    (∃ bytes, Store.readOn m addr acc n = .ok bytes) ↔ m.HoldsWindow addr n := by
  induction n generalizing addr acc with
  | zero => exact iff_of_true ⟨acc, rfl⟩ nofun
  | succ n ih =>
    rw [holdsWindow_succ, Store.readOn]
    by_cases inside : addr.toNat + 1 ≤ m.size
    · have read : Store.readByte m addr = .ok (m.bytes.getD addr.toNat 0) :=
        (readByte_eq m addr).trans (if_pos inside)
      rw [read, and_iff_right (Nat.lt_of_succ_le inside)]
      exact ih _
    · have unread : Store.readByte m addr = .error (.outOfBounds addr 1 m.size) :=
        (readByte_eq m addr).trans (if_neg inside)
      rw [unread]
      apply iff_of_false
      · rintro ⟨bytes, h⟩
        cases h
      · rintro ⟨h, -⟩
        exact inside h

theorem exists_window_iff :
    (∃ text, Store.window m addr n = .ok text) ↔ m.HoldsWindow addr n := by
  rw [← exists_readOn_iff #[], Store.window]
  cases Store.readOn m addr #[] n with
  | ok bytes => exact iff_of_true ⟨_, rfl⟩ ⟨bytes, rfl⟩
  | error fault =>
    apply iff_of_false
    · rintro ⟨text, h⟩
      cases h
    · rintro ⟨bytes, h⟩
      cases h

end FrameMachine.Memory

namespace FrameMachine

namespace Store

/-- The text of the bytes from an address on. -/
def windowText (addr : UInt32) (bytes : List UInt8) : String :=
  "0x" ++ Numeral.lowerHex 4 addr.toNat ++ ": " ++
    " ".intercalate (bytes.map fun b => "0x" ++ Numeral.lowerHex 2 b.toNat)

/-- Reads the text of a window: an address up to the colon, then numbers between spaces. -/
def readWindow (text : String) : Except Address.Invalid (UInt32 × List UInt8) := do
  let addr ← Address.parse (String.ofList (text.toList.takeWhile (· ≠ ':')))
  let shown := (text.toList.dropWhile (· ≠ ':')).drop 2
  let bytes ← ((shown.splitOn ' ').filter (· ≠ [])).mapM fun piece =>
    Address.parse (String.ofList piece)
  return (addr, bytes.map UInt32.toUInt8)

variable {addr : UInt32} {bytes : List UInt8} {n : Nat}

theorem window_eq {σ : Type} [Store σ] (s : σ) (addr : UInt32) (n : Nat) :
    window s addr n = (readOn s addr #[] n).map fun bytes => windowText addr bytes.toList := by
  rw [window]
  cases readOn s addr #[] n with
  | ok bytes => rfl
  | error fault => rfl

def shown (places n : Nat) : List Char := '0' :: 'x' :: Numeral.hexDigits places n

theorem ofList_shown (places n : Nat) :
    String.ofList (shown places n) = "0x" ++ Numeral.lowerHex places n := by
  apply String.toList_inj.mp
  simp [shown, Numeral.lowerHex]

theorem not_mem_shown {c : Char} (separates : c = ':' ∨ c = ' ') (places n : Nat) :
    c ∉ shown places n := by
  have other : ∀ d, ¬ Numeral.IsDigit 16 c d := by
    intro d digit
    obtain ⟨-, coded⟩ := (Numeral.isDigit_iff (by decide)).mp digit
    unfold Numeral.Coded at coded
    rcases separates with rfl | rfl <;> simp only [Char.reduceToNat] at coded <;> omega
  have digits : c ∉ Numeral.hexDigits places n := by
    intro mem
    obtain ⟨d, digit⟩ := (Numeral.denotes_hexDigits places n).isDigit_of_mem mem
    exact other d digit
  unfold shown
  rcases separates with rfl | rfl <;> simpa using digits

theorem toList_windowText (addr : UInt32) (bytes : List UInt8) :
    (windowText addr bytes).toList = shown 4 addr.toNat ++
      ':' :: ' ' :: [' '].intercalate (bytes.map fun b => shown 2 b.toNat) := by
  have pieces : (bytes.map fun b => "0x" ++ Numeral.lowerHex 2 b.toNat).map String.toList =
      bytes.map fun b => shown 2 b.toNat := by
    rw [List.map_map]
    apply List.map_congr_left
    intro b _
    rw [Function.comp, ← ofList_shown, String.toList_ofList]
  have colon : (": " : String).toList = [':', ' '] := by decide
  have space : (" " : String).toList = [' '] := by decide
  rw [windowText, ← ofList_shown, String.toList_append, String.toList_append, String.toList_ofList,
    String.toList_intercalate, pieces, colon, space, List.append_assoc]
  rfl

theorem splitOn_shown (bytes : List UInt8) :
    (([' '].intercalate (bytes.map fun b => shown 2 b.toNat)).splitOn ' ').filter (· ≠ []) =
      bytes.map fun b => shown 2 b.toNat := by
  cases bytes with
  | nil => decide
  | cons b bytes =>
    rw [List.splitOn_intercalate]
    · apply List.filter_eq_self.mpr
      intro piece mem
      obtain ⟨b, -, rfl⟩ := List.mem_map.mp mem
      rfl
    · intro piece mem
      obtain ⟨b, -, rfl⟩ := List.mem_map.mp mem
      exact not_mem_shown (Or.inr rfl) 2 b.toNat
    · exact List.cons_ne_nil _ _

theorem parse_shown (places : Nat) (n : UInt32) :
    Address.parse (String.ofList (shown places n.toNat)) = .ok n := by
  rw [ofList_shown]
  exact Address.parse_lowerHex places n

theorem parse_pieces (bytes : List UInt8) :
    (bytes.map fun b => shown 2 b.toNat).mapM (fun piece => Address.parse (String.ofList piece)) =
      .ok (bytes.map UInt8.toUInt32) := by
  induction bytes with
  | nil => rfl
  | cons b bytes ih =>
    have first : Address.parse (String.ofList (shown 2 b.toNat)) = .ok b.toUInt32 := by
      rw [← UInt8.toNat_toUInt32]
      exact parse_shown 2 b.toUInt32
    rw [List.map_cons, List.mapM_cons, first, ih]
    rfl

theorem readWindow_windowText (addr : UInt32) (bytes : List UInt8) :
    readWindow (windowText addr bytes) = .ok (addr, bytes) := by
  have head : ∀ c ∈ shown 4 addr.toNat, decide (c ≠ ':') = true := by
    intro c mem
    rw [decide_eq_true_iff]
    rintro rfl
    exact not_mem_shown (Or.inl rfl) 4 addr.toNat mem
  have taken : (windowText addr bytes).toList.takeWhile (· ≠ ':') = shown 4 addr.toNat := by
    rw [toList_windowText, List.takeWhile_append_of_pos head]
    simp
  have dropped : ((windowText addr bytes).toList.dropWhile (· ≠ ':')).drop 2 =
      [' '].intercalate (bytes.map fun b => shown 2 b.toNat) := by
    rw [toList_windowText, List.dropWhile_append_of_pos head]
    simp
  have back : (bytes.map UInt8.toUInt32).map UInt32.toUInt8 = bytes := by
    simp [Function.comp_def]
  simp only [readWindow, taken, dropped, parse_shown, splitOn_shown, parse_pieces]
  exact congrArg (fun bytes => Except.ok (addr, bytes)) back

theorem windowText_inj {addr' : UInt32} {bytes' : List UInt8} :
    windowText addr bytes = windowText addr' bytes' ↔ addr = addr' ∧ bytes = bytes' := by
  constructor
  · intro same
    have read := readWindow_windowText addr bytes
    rw [same, readWindow_windowText] at read
    cases read
    exact ⟨rfl, rfl⟩
  · rintro ⟨rfl, rfl⟩
    rfl

end Store

namespace Memory

variable {m : Memory} {addr : UInt32} {n : Nat}

/-- The bytes of a stretch, as far as the memory goes. -/
def stretch (m : Memory) (addr : UInt32) (n : Nat) : List UInt8 :=
  (m.bytes.toList.drop addr.toNat).take n

theorem stretch_zero : m.stretch addr 0 = [] := List.take_zero

theorem stretch_succ (inside : addr.toNat < m.size) (next : (addr + 1).toNat = addr.toNat + 1) :
    m.stretch addr (n + 1) = m.bytes.getD addr.toNat 0 :: m.stretch (addr + 1) n := by
  have here : addr.toNat < m.bytes.size := inside
  have listed : addr.toNat < m.bytes.toList.length := inside
  rw [stretch, stretch, next, List.drop_eq_getElem_cons listed, List.take_succ_cons]
  simp [Array.getD_eq_getD_getElem?, here]

theorem slice_eq (m : Memory) (addr : UInt32) (n : Nat) : m.slice addr n =
    if addr.toNat + n ≤ m.size then .ok (m.stretch addr n)
    else .error (.outOfBounds addr (min n 255) m.size) := by
  have bytes : (m.bytes.extract addr.toNat (addr.toNat + n)).toList = m.stretch addr n := by
    rw [Array.toList_extract, List.extract_eq_take_drop, Nat.add_sub_cancel_left]
    rfl
  rw [slice, bytes]
  rfl

/-- Reading byte by byte finds the stretch, or stops at the first byte past the memory. -/
theorem readOn_eq (short : m.size < UInt32.size) (acc : Array UInt8) :
    Store.readOn m addr acc n =
      if n = 0 ∨ addr.toNat + n ≤ m.size then .ok (acc ++ (m.stretch addr n).toArray)
      else .error (.outOfBounds (UInt32.ofNat (max addr.toNat m.size)) 1 m.size) := by
  induction n generalizing addr acc with
  | zero =>
    rw [if_pos (Or.inl rfl), stretch_zero]
    simp [Store.readOn]
  | succ n ih =>
    rw [Store.readOn]
    by_cases inside : addr.toNat < m.size
    · have read : Store.readByte m addr = .ok (m.bytes.getD addr.toNat 0) :=
        (readByte_eq m addr).trans (if_pos inside)
      -- the memory ends before the addresses do, so the next address does not wrap
      have next : (addr + 1).toNat = addr.toNat + 1 := by
        rw [UInt32.toNat_add]
        simp only [UInt32.reduceToNat]
        unfold UInt32.size at short
        omega
      have goes_on : (n = 0 ∨ (addr + 1).toNat + n ≤ m.size) ↔
          (n + 1 = 0 ∨ addr.toNat + (n + 1) ≤ m.size) := by omega
      have stop : max (addr + 1).toNat m.size = max addr.toNat m.size := by omega
      rw [read]
      refine (ih _).trans ?_
      simp only [goes_on, stop, stretch_succ inside next]
      simp
    · have unread : Store.readByte m addr = .error (.outOfBounds addr 1 m.size) :=
        (readByte_eq m addr).trans (if_neg inside)
      have stop : max addr.toNat m.size = addr.toNat := by omega
      rw [unread, if_neg (by omega), stop, UInt32.ofNat_toNat]
      rfl

theorem window_eq_of_short (short : m.size < UInt32.size) : Store.window m addr n =
    if n = 0 ∨ addr.toNat + n ≤ m.size then .ok (Store.windowText addr (m.stretch addr n))
    else .error (.outOfBounds (UInt32.ofNat (max addr.toNat m.size)) 1 m.size) := by
  rw [Store.window_eq, readOn_eq short]
  by_cases fits : n = 0 ∨ addr.toNat + n ≤ m.size
  · rw [if_pos fits, if_pos fits]
    simp [Except.map]
  · rw [if_neg fits, if_neg fits]
    rfl

theorem stretch_of_slice {bytes : List UInt8} (h : m.slice addr n = .ok bytes) :
    m.stretch addr n = bytes := by
  rw [slice_eq] at h
  split at h
  · exact Except.ok.inj h
  · cases h

theorem text_of_window (short : m.size < UInt32.size) {text : String}
    (h : Store.window m addr n = .ok text) :
    (n = 0 ∨ addr.toNat + n ≤ m.size) ∧ text = Store.windowText addr (m.stretch addr n) := by
  rw [window_eq_of_short short] at h
  split at h
  · exact ⟨‹_›, (Except.ok.inj h).symm⟩
  · cases h

theorem exists_window_iff_of_short (short : m.size < UInt32.size) :
    (∃ text, Store.window m addr n = .ok text) ↔ n = 0 ∨ addr.toNat + n ≤ m.size :=
  exists_window_iff.trans (holdsWindow_iff short)

theorem exists_slice_iff :
    (∃ bytes, m.slice addr n = .ok bytes) ↔ addr.toNat + n ≤ m.size := by
  rw [slice_eq]
  by_cases fits : addr.toNat + n ≤ m.size
  · rw [if_pos fits]
    exact iff_of_true ⟨_, rfl⟩ fits
  · rw [if_neg fits]
    refine iff_of_false ?_ fits
    rintro ⟨bytes, h⟩
    cases h

theorem readable_iff {a : UInt32} : (∃ b, m.readByte a = .ok b) ↔ a.toNat < m.size := by
  rw [readByte_eq]
  by_cases inside : a.toNat + 1 ≤ m.size
  · rw [if_pos inside]
    exact iff_of_true ⟨_, rfl⟩ inside
  · rw [if_neg inside]
    refine iff_of_false ?_ inside
    rintro ⟨b, h⟩
    cases h

/-- A window that is not empty can be shown iff the slice can be taken, and its text can be read
back to the address and the bytes of the slice. If it cannot be shown, its fault names the first
byte that cannot be read, that of the slice the stretch itself. -/
theorem window_agrees_with_slice (m : Memory) (short : m.size < UInt32.size) (addr : UInt32)
    (n : Nat) :
    ((∃ text, Store.window m addr n = .ok text) ↔ n = 0 ∨ addr.toNat + n ≤ m.size) ∧
    (0 < n → ((∃ text, Store.window m addr n = .ok text) ↔ ∃ bytes, m.slice addr n = .ok bytes)) ∧
    (∀ text, Store.window m addr n = .ok text →
      ∃ bytes, Store.readWindow text = .ok (addr, bytes) ∧
        (0 < n → m.slice addr n = .ok bytes) ∧ (n = 0 → bytes = [])) ∧
    m.slice addr 0 =
      (if addr.toNat ≤ m.size then .ok [] else .error (.outOfBounds addr 0 m.size)) ∧
    (∀ (m' : Memory) text text', m'.size < UInt32.size →
      Store.window m addr n = .ok text → Store.window m' addr n = .ok text' →
      (n = 0 → text = text') ∧
      ∀ bytes bytes', m.slice addr n = .ok bytes → m'.slice addr n = .ok bytes' →
        (text = text' ↔ bytes = bytes')) ∧
    (¬ (n = 0 ∨ addr.toNat + n ≤ m.size) →
      Store.window m addr n =
        .error (.outOfBounds (UInt32.ofNat (max addr.toNat m.size)) 1 m.size) ∧
      m.slice addr n = .error (.outOfBounds addr (min n 255) m.size) ∧
      ∀ a : UInt32, addr.toNat ≤ a.toNat →
        ((∃ b, m.readByte a = .ok b) ↔ a.toNat < max addr.toNat m.size)) := by
  refine ⟨exists_window_iff_of_short short, fun some_bytes => ?_, fun text shown => ?_, ?_,
    fun m' text text' short' shown shown' => ?_, fun outside => ?_⟩
  · rw [exists_window_iff_of_short short, exists_slice_iff]
    omega
  · obtain ⟨fits, rfl⟩ := text_of_window short shown
    refine ⟨m.stretch addr n, Store.readWindow_windowText addr _, fun some_bytes => ?_, ?_⟩
    · rw [slice_eq, if_pos (by omega)]
    · rintro rfl
      exact stretch_zero
  · rw [slice_eq, stretch_zero]
    rfl
  · obtain ⟨-, rfl⟩ := text_of_window short shown
    obtain ⟨-, rfl⟩ := text_of_window short' shown'
    constructor
    · rintro rfl
      rw [stretch_zero, stretch_zero]
    · intro bytes bytes' taken taken'
      rw [stretch_of_slice taken, stretch_of_slice taken', Store.windowText_inj]
      exact and_iff_right rfl
  · refine ⟨?_, ?_, fun a from_there => ?_⟩
    · rw [window_eq_of_short short, if_neg outside]
    · rw [slice_eq, if_neg (by omega)]
    · rw [readable_iff]
      omega

/-- Two bytes at the end of a memory, an empty window past it, and a window that does not fit. -/
theorem window_at_the_end :
    let m : Memory := ⟨#[0x0A, 0xBC, 0xDE]⟩
    m.size < UInt32.size ∧
    (Store.window m 1 2 = .ok "0x0001: 0xbc 0xde" ∧
      Store.readWindow "0x0001: 0xbc 0xde" = .ok (1, [0xBC, 0xDE]) ∧
      m.slice 1 2 = .ok [0xBC, 0xDE]) ∧
    (Store.window m 70000 0 = .ok "0x11170: " ∧
      m.slice 70000 0 = .error (.outOfBounds 70000 0 3)) ∧
    ¬ (300 = 0 ∨ (2 : UInt32).toNat + 300 ≤ m.size) ∧
    Store.window m 2 300 = .error (.outOfBounds 3 1 3) ∧
    m.slice 2 300 = .error (.outOfBounds 2 255 3) := by
  intro m
  have short : m.size < UInt32.size := by decide
  have shown : Store.window m 1 2 = .ok "0x0001: 0xbc 0xde" := by decide +kernel
  have empty : Store.window m 70000 0 = .ok "0x11170: " := by decide +kernel
  have outside : ¬ (300 = 0 ∨ (2 : UInt32).toNat + 300 ≤ m.size) := by decide
  obtain ⟨-, -, read, -⟩ := window_agrees_with_slice m short 1 2
  obtain ⟨bytes, back, sliced, -⟩ := read _ shown
  have taken : m.slice 1 2 = .ok [0xBC, 0xDE] := by decide
  obtain rfl := Except.ok.inj ((sliced (by decide)).symm.trans taken)
  obtain ⟨-, -, -, slice_empty, -⟩ := window_agrees_with_slice m short 70000 0
  obtain ⟨-, -, -, -, -, refused⟩ := window_agrees_with_slice m short 2 300
  obtain ⟨unshown, untaken, -⟩ := refused outside
  exact ⟨short, ⟨shown, back, taken⟩, ⟨empty, slice_empty⟩, outside, unshown, untaken⟩

end Memory

end FrameMachine
