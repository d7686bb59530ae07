import FrameMachine.Proofs.Store.Rendering
import FrameMachine.Store.Sparse
import Mathlib.Data.List.Perm.Basic

/-!
# Loading images

A memory takes an image whole or not at all, and an image that it takes leaves the same bytes as
writing them one by one in any order. After several loads, refused ones among them, every byte is
the one that the last load over it has brought.
-/
namespace FrameMachine.Memory

variable {m m' : Memory} {start : UInt32} {image : List UInt8} {cells : List (UInt8 × Nat)}
  {loads : List (UInt32 × List UInt8)} {load : UInt32 × List UInt8} {a b k : Nat} {v w : UInt8}

/-- What is seen at a place while the image lies over the memory from `start` on. -/
def overlaid (m : Memory) (start : Nat) (image : List UInt8) (k : Nat) : Option UInt8 :=
  if start ≤ k ∧ k < start + image.length then image[k - start]? else m.bytes[k]?

/-- Writes bytes one after the other, each at its own distance from `start`. -/
def writeCells (start : UInt32) (cells : List (UInt8 × Nat)) : EStateM Fault Memory Unit :=
  cells.forM fun cell => writeByte (start + UInt32.ofNat cell.2) cell.1

def putCells (m : Memory) (start : Nat) (cells : List (UInt8 × Nat)) : Memory :=
  cells.foldl (fun m cell => m.putByte (start + cell.2) cell.1) m

/-- The memory as a load leaves it, whether the load is taken or refused. -/
def afterLoad (m : Memory) (load : UInt32 × List UInt8) : Memory :=
  match writeImage load.1 load.2 m with
  | .ok _ m' => m'
  | .error _ m' => m'

def afterLoads (m : Memory) (loads : List (UInt32 × List UInt8)) : Memory :=
  loads.foldl afterLoad m

/-- The load with number `k` succeeds when its turn comes, and has the byte for the place. -/
def Brings (m : Memory) (loads : List (UInt32 × List UInt8)) (k a : Nat) (v : UInt8) : Prop :=
  ∃ start image m', loads[k]? = some (start, image) ∧
    writeImage start image (m.afterLoads (loads.take k)) = .ok () m' ∧
    start.toNat ≤ a ∧ image[a - start.toNat]? = some v

theorem writeImage_eq_ok_iff : writeImage start image m = .ok () m' ↔
    start.toNat + image.length ≤ m.size ∧ m' = ⟨place m.bytes start.toNat image⟩ := by
  rw [writeImage_eq]
  split
  · simp [*, eq_comm]
  · simp [*]

theorem writeImage_refused (outside : ¬ start.toNat + image.length ≤ m.size) :
    writeImage start image m = .error (.outOfBounds start (min image.length 255) m.size) m :=
  (writeImage_eq _ _ _).trans (if_neg outside)

theorem load_eq_ok_iff : m.load start image = .ok m' ↔ writeImage start image m = .ok () m' := by
  rw [load]
  cases writeImage start image m with
  | ok u left => simp
  | error fault left => simp

theorem byte_place {bytes : Array UInt8} {index : Nat} (room : index + image.length ≤ bytes.size) :
    (place bytes index image)[k]? = overlaid ⟨bytes⟩ index image k := by
  induction image generalizing bytes index with
  | nil =>
    rw [place, overlaid, if_neg (by rw [List.length_nil]; omega)]
  | cons v rest ih =>
    rw [List.length_cons] at room
    rw [place, ih (by rw [Array.size_setIfInBounds]; omega)]
    unfold overlaid
    rcases Nat.lt_trichotomy k index with before | rfl | behind
    · rw [if_neg (by omega), if_neg (by omega), Array.getElem?_setIfInBounds_ne (by omega)]
    · rw [if_neg (by omega), if_pos (by simp), Array.getElem?_setIfInBounds_self_of_lt (by omega)]
      simp
    · obtain ⟨i, rfl⟩ : ∃ i, k = index + 1 + i := ⟨k - (index + 1), by omega⟩
      have first : index + 1 + i - index = i + 1 := by omega
      have further : index + 1 + i - (index + 1) = i := by omega
      rw [Array.getElem?_setIfInBounds_ne (by omega), first, further, List.getElem?_cons_succ]
      exact if_congr (by rw [List.length_cons]; omega) rfl rfl

theorem byte_of_writeImage (h : writeImage start image m = .ok () m') :
    m'.bytes[k]? = m.overlaid start.toNat image k := by
  obtain ⟨room, rfl⟩ := writeImage_eq_ok_iff.mp h
  exact byte_place room

theorem size_of_writeImage (h : writeImage start image m = .ok () m') : m'.size = m.size := by
  obtain ⟨-, rfl⟩ := writeImage_eq_ok_iff.mp h
  exact size_place _ _ _

theorem slice_of_writeImage (h : writeImage start image m = .ok () m') :
    m'.slice start image.length = .ok image := by
  have room := (writeImage_eq_ok_iff.mp h).1
  rw [slice_eq, size_of_writeImage h, if_pos room, Except.ok.injEq]
  apply List.ext_getElem?
  intro i
  unfold stretch
  by_cases inside : i < image.length
  · rw [List.getElem?_take_of_lt inside, List.getElem?_drop, Array.getElem?_toList, byte_of_writeImage h,
      overlaid, if_pos (by omega), Nat.add_sub_cancel_left]
  · rw [List.getElem?_eq_none (Nat.le_of_not_lt inside), List.getElem?_eq_none]
    rw [List.length_take]
    omega

theorem readWord_of_writeImage (h : writeImage start image m = .ok () m') {addr : UInt32}
    (inside : addr.toNat + 2 ≤ m.size) : ∃ hi lo, m.overlaid start.toNat image addr.toNat = some hi ∧
      m.overlaid start.toNat image (addr.toNat + 1) = some lo ∧
      m'.readWord addr = .ok (Word.ofBytes hi lo) := by
  have second : addr.toNat + 1 < m'.bytes.size := by
    rw [← size_of_writeImage h] at inside
    exact inside
  have first : addr.toNat < m'.bytes.size := Nat.lt_of_succ_lt second
  refine ⟨m'.bytes[addr.toNat], m'.bytes[addr.toNat + 1], ?_, ?_, dif_pos second⟩
  · rw [← byte_of_writeImage h, Array.getElem?_eq_getElem first]
  · rw [← byte_of_writeImage h, Array.getElem?_eq_getElem second]

theorem putByte_comm (apart : a ≠ b) :
    (m.putByte a v).putByte b w = (m.putByte b w).putByte a v :=
  congrArg Memory.mk (Array.setIfInBounds_comm v w apart)

theorem writeCells_eq (small : m.size ≤ UInt32.size)
    (inside : ∀ cell ∈ cells, start.toNat + cell.2 < m.size) :
    writeCells start cells m = .ok () (m.putCells start.toNat cells) := by
  induction cells generalizing m with
  | nil => rfl
  | cons cell cells ih =>
    obtain ⟨v, i⟩ := cell
    have here : start.toNat + i < m.size := inside _ List.mem_cons_self
    have unwrapped : (start + UInt32.ofNat i).toNat = start.toNat + i := by
      unfold UInt32.size at small
      rw [UInt32.toNat_add, UInt32.toNat_ofNat']
      omega
    have written : writeByte (start + UInt32.ofNat i) v m = .ok () (m.putByte (start.toNat + i) v) := by
      rw [writeByte_eq, unwrapped, if_pos (Nat.succ_le_of_lt here)]
    have rest := @ih (m.putByte (start.toNat + i) v) (by rwa [size_putByte]) (by
      intro cell mem
      rw [size_putByte]
      exact inside cell (List.mem_cons_of_mem _ mem))
    change EStateM.bind _ _ m = _
    rw [EStateM.bind, written]
    exact rest

theorem putCells_zipIdx (m : Memory) (start n : Nat) (image : List UInt8) :
    m.putCells start (image.zipIdx n) = ⟨place m.bytes (start + n) image⟩ := by
  induction image generalizing m n with
  | nil => rfl
  | cons v rest ih => exact ih (m.putByte (start + n) v) (n + 1)

theorem putCells_of_perm (order : cells.Perm image.zipIdx) :
    m.putCells start.toNat cells = ⟨place m.bytes start.toNat image⟩ := by
  rw [← Nat.add_zero start.toNat, ← putCells_zipIdx]
  apply order.foldl_eq'
  intro x hx y hy m
  have placed {cell : UInt8 × Nat} (mem : cell ∈ cells) : image[cell.2]? = some cell.1 :=
    List.mem_zipIdx_iff_getElem?.mp (order.mem_iff.mp mem)
  by_cases same : x.2 = y.2
  · have bytes := placed hx
    rw [same, placed hy, Option.some.injEq] at bytes
    rw [same, bytes]
  · exact putByte_comm (by omega)

theorem writeCells_of_writeImage (small : m.size ≤ UInt32.size) (h : writeImage start image m = .ok () m')
    (order : cells.Perm image.zipIdx) : writeCells start cells m = .ok () m' := by
  obtain ⟨room, rfl⟩ := writeImage_eq_ok_iff.mp h
  rw [writeCells_eq small, putCells_of_perm order]
  intro cell mem
  have placed := List.mem_zipIdx_iff_getElem?.mp (order.mem_iff.mp mem)
  have inside := (List.getElem?_eq_some_iff.mp placed).1
  omega

theorem afterLoads_append_singleton :
    m.afterLoads (loads ++ [load]) = (m.afterLoads loads).afterLoad load :=
  List.foldl_append

theorem Brings.lt_length (h : m.Brings loads k a v) : k < loads.length := by
  obtain ⟨_, _, _, here, -⟩ := h
  exact (List.getElem?_eq_some_iff.mp here).1

theorem brings_append_singleton (earlier : k < loads.length) :
    m.Brings (loads ++ [load]) k a v ↔ m.Brings loads k a v := by
  unfold Brings
  rw [List.getElem?_append_left earlier, List.take_append_of_le_length (Nat.le_of_lt earlier)]

theorem brings_last_iff : m.Brings (loads ++ [load]) loads.length a v ↔
    (∃ m', writeImage load.1 load.2 (m.afterLoads loads) = .ok () m') ∧
      load.1.toNat ≤ a ∧ load.2[a - load.1.toNat]? = some v := by
  unfold Brings
  rw [List.getElem?_concat_length, List.take_left']
  · constructor
    · rintro ⟨_, _, m', last, loaded, here⟩
      obtain rfl := Option.some.inj last
      exact ⟨⟨m', loaded⟩, here⟩
    · rintro ⟨⟨m', loaded⟩, here⟩
      exact ⟨load.1, load.2, m', rfl, loaded, here⟩
  · rfl

theorem byte_of_last_brought (h : m.Brings (loads ++ [load]) loads.length a v) :
    (m.afterLoads (loads ++ [load])).bytes[a]? = some v := by
  obtain ⟨⟨m', loaded⟩, begun, here⟩ := brings_last_iff.mp h
  have inside := (List.getElem?_eq_some_iff.mp here).1
  have after : (m.afterLoads loads).afterLoad load = m' := by
    rw [afterLoad, loaded]
  rw [afterLoads_append_singleton, after, byte_of_writeImage loaded, overlaid, if_pos (by omega), here]

theorem byte_of_last_not_brought (h : ∀ v, ¬ m.Brings (loads ++ [load]) loads.length a v) :
    (m.afterLoads (loads ++ [load])).bytes[a]? = (m.afterLoads loads).bytes[a]? := by
  rw [afterLoads_append_singleton]
  by_cases room : load.1.toNat + load.2.length ≤ (m.afterLoads loads).size
  · obtain ⟨m', loaded⟩ : ∃ m', writeImage load.1 load.2 (m.afterLoads loads) = .ok () m' :=
      ⟨_, writeImage_eq_ok_iff.mpr ⟨room, rfl⟩⟩
    have after : (m.afterLoads loads).afterLoad load = m' := by
      rw [afterLoad, loaded]
    rw [after, byte_of_writeImage loaded, overlaid, if_neg]
    rintro ⟨begun, inside⟩
    have here := List.getElem?_eq_getElem (l := load.2) (show a - load.1.toNat < _ by omega)
    exact h _ (brings_last_iff.mpr ⟨⟨m', loaded⟩, begun, here⟩)
  · rw [afterLoad, writeImage_refused room]

theorem byte_afterLoads_of_brings (h : m.Brings loads k a v)
    (last : ∀ j > k, ∀ w, ¬ m.Brings loads j a w) : (m.afterLoads loads).bytes[a]? = some v := by
  induction loads using List.reverseRecOn with
  | nil => exact absurd h.lt_length (Nat.not_lt_zero k)
  | append_singleton loads load ih =>
    have bound := h.lt_length
    rw [List.length_append, List.length_singleton] at bound
    by_cases earlier : k < loads.length
    · rw [byte_of_last_not_brought (last loads.length earlier)]
      refine ih ((brings_append_singleton earlier).mp h) fun j later w brings => ?_
      exact last j later w ((brings_append_singleton brings.lt_length).mpr brings)
    · obtain rfl : k = loads.length := by omega
      exact byte_of_last_brought h

theorem byte_afterLoads_of_not_brings (h : ∀ k v, ¬ m.Brings loads k a v) :
    (m.afterLoads loads).bytes[a]? = m.bytes[a]? := by
  induction loads using List.reverseRecOn with
  | nil => rfl
  | append_singleton loads load ih =>
    rw [byte_of_last_not_brought (h loads.length)]
    exact ih fun k v brings => h k v ((brings_append_singleton brings.lt_length).mpr brings)

/-- An image is written iff it fits, and then its bytes may as well be written one by one in any
order. It is there as a slice, words over its edges take one byte from either side, and nothing else
changes. A write that is refused leaves the memory as it is. After a sequence of images, refused ones
among them, every byte is the one that the last successful write over it has brought. -/
theorem load_is_bytewise (m : Memory) (small : m.size ≤ UInt32.size) (start : UInt32)
    (image : List UInt8) :
    ((∃ m', writeImage start image m = .ok () m') ↔ start.toNat + image.length ≤ m.size) ∧
    (∀ m', writeImage start image m = .ok () m' →
      m.load start image = .ok m' ∧
      (∀ cells : List (UInt8 × Nat), cells.Perm image.zipIdx →
        writeCells start cells m = .ok () m') ∧
      m'.slice start image.length = .ok image ∧
      (∀ addr : UInt32, addr.toNat + 2 ≤ m.size →
        ∃ hi lo, m.overlaid start.toNat image addr.toNat = some hi ∧
          m.overlaid start.toNat image (addr.toNat + 1) = some lo ∧
          m'.readWord addr = .ok (Word.ofBytes hi lo)) ∧
      m'.size = m.size ∧
      ∀ k, ¬ (start.toNat ≤ k ∧ k < start.toNat + image.length) → m'.bytes[k]? = m.bytes[k]?) ∧
    (¬ start.toNat + image.length ≤ m.size →
      writeImage start image m = .error (.outOfBounds start (min image.length 255) m.size) m ∧
      m.load start image = .error (.outOfBounds start (min image.length 255) m.size)) ∧
    ∀ (loads : List (UInt32 × List UInt8)) (a : Nat),
      (∀ k v, m.Brings loads k a v → (∀ j > k, ∀ w, ¬ m.Brings loads j a w) →
        (m.afterLoads loads).bytes[a]? = some v) ∧
      ((∀ k v, ¬ m.Brings loads k a v) → (m.afterLoads loads).bytes[a]? = m.bytes[a]?) := by
  refine ⟨⟨?_, fun room => ?_⟩, fun m' written => ⟨?_, ?_, ?_, ?_, ?_, ?_⟩, fun outside => ?_,
    fun loads a => ⟨?_, byte_afterLoads_of_not_brings⟩⟩
  · rintro ⟨m', written⟩
    exact (writeImage_eq_ok_iff.mp written).1
  · exact ⟨_, writeImage_eq_ok_iff.mpr ⟨room, rfl⟩⟩
  · exact load_eq_ok_iff.mpr written
  · exact fun cells order => writeCells_of_writeImage small written order
  · exact slice_of_writeImage written
  · exact fun addr inside => readWord_of_writeImage written inside
  · exact size_of_writeImage written
  · intro k outside
    rw [byte_of_writeImage written, overlaid, if_neg outside]
  · exact ⟨writeImage_refused outside, (load_eq _ _ _).trans (if_neg outside)⟩
  · exact fun k v brings last => byte_afterLoads_of_brings brings last

/-- An image written from its end, a word over its last byte, and two loads of which the second is
refused. -/
theorem edge_word_and_refused_load :
    let m : Memory := ⟨#[1, 2, 3, 4, 5]⟩
    let m' : Memory := ⟨#[1, 0xAA, 0xBB, 4, 5]⟩
    let loads : List (UInt32 × List UInt8) := [(1, [0xAA, 0xBB]), (2, [7, 8, 9, 10])]
    m.size ≤ UInt32.size ∧
    (writeImage 1 [0xAA, 0xBB] m = .ok () m' ∧ m.load 1 [0xAA, 0xBB] = .ok m' ∧
      [((0xBB : UInt8), 1), (0xAA, 0)].Perm ([0xAA, 0xBB] : List UInt8).zipIdx ∧
      writeCells 1 [(0xBB, 1), (0xAA, 0)] m = .ok () m' ∧
      (2 : UInt32).toNat + 2 ≤ m.size ∧ m'.readWord 2 = .ok 0xBB04 ∧
      ¬ ((1 : UInt32).toNat ≤ 3 ∧ 3 < (1 : UInt32).toNat + 2) ∧ m'.bytes[3]? = m.bytes[3]?) ∧
    (¬ (2 : UInt32).toNat + 4 ≤ m.size ∧
      writeImage 2 [7, 8, 9, 10] m = .error (.outOfBounds 2 4 5) m) ∧
    (m.Brings loads 0 2 0xBB ∧ (∀ j > 0, ∀ w, ¬ m.Brings loads j 2 w) ∧
      (m.afterLoads loads).bytes[2]? = some 0xBB) ∧
    (∀ k v, ¬ m.Brings loads k 3 v) ∧ (m.afterLoads loads).bytes[3]? = some 4 := by
  intro m m' loads
  have small : m.size ≤ UInt32.size := by decide
  have loaded : writeImage 1 [0xAA, 0xBB] m = .ok () m' := rfl
  have order : [((0xBB : UInt8), 1), (0xAA, 0)].Perm ([0xAA, 0xBB] : List UInt8).zipIdx := by decide
  have inside : (2 : UInt32).toNat + 2 ≤ m.size := by decide
  have apart : ¬ ((1 : UInt32).toNat ≤ 3 ∧ 3 < (1 : UInt32).toNat + 2) := by decide
  have outside : ¬ (2 : UInt32).toNat + 4 ≤ m.size := by decide
  have refused : ∀ m'', writeImage 2 [7, 8, 9, 10] m' ≠ .ok () m'' := by
    intro m'' h
    exact outside (writeImage_eq_ok_iff.mp h).1
  -- only the first load succeeds, and it ends in front of the last two bytes
  have first {k a : Nat} {v : UInt8} (h : m.Brings loads k a v) : k = 0 ∧ a < 3 := by
    obtain ⟨start, image, m'', here, succeeds, begun, byte⟩ := h
    match k with
    | 0 =>
      obtain ⟨rfl, rfl⟩ := Prod.mk.inj (Option.some.inj here)
      have covered := (List.getElem?_eq_some_iff.mp byte).1
      simp only [List.length_cons, List.length_nil, UInt32.reduceToNat] at covered
      omega
    | 1 =>
      obtain ⟨rfl, rfl⟩ := Prod.mk.inj (Option.some.inj here)
      exact absurd succeeds (refused m'')
    | k + 2 => cases here
  have brings : m.Brings loads 0 2 0xBB := ⟨1, _, m', rfl, loaded, by decide, rfl⟩
  have last : ∀ j > 0, ∀ w, ¬ m.Brings loads j 2 w := by
    intro j later w h
    exact Nat.ne_of_gt later (first h).1
  have none : ∀ k v, ¬ m.Brings loads k 3 v := fun k v h => absurd (first h).2 (by decide)
  obtain ⟨-, taken, -, sequence⟩ := load_is_bytewise m small 1 [0xAA, 0xBB]
  obtain ⟨whole, written, -, words, -, kept⟩ := taken m' loaded
  obtain ⟨hi, lo, hhi, hlo, word⟩ := words 2 inside
  obtain rfl : (0xBB : UInt8) = hi := Option.some.inj hhi
  obtain rfl : (4 : UInt8) = lo := Option.some.inj hlo
  obtain ⟨-, -, untaken, -⟩ := load_is_bytewise m small 2 [7, 8, 9, 10]
  exact ⟨small, ⟨loaded, whole, order, written _ order, inside, word, apart, kept 3 apart⟩,
    ⟨outside, (untaken outside).1⟩, ⟨brings, last, (sequence loads 2).1 0 0xBB brings last⟩, none,
    (sequence loads 3).2 none⟩

end FrameMachine.Memory
