import FrameMachine.Proofs.Machine.AllOrNothing
import FrameMachine.Proofs.Stack.Frame

/-!
# Returns from any stack

A return trusts the words that it finds above `fp`, whoever has put them there. It takes them one
after the other and never wraps, so it goes through exactly if the frame and the arguments that the
frame counts end inside the memory. If they do not, it stops at the first word outside, with all
those registers restored whose words it has passed.
-/
namespace FrameMachine

namespace Register

/-- What a return takes from its frame after the marker, in the order in which it is popped. -/
def restored : List Register := .ip :: saved.reverse

def frameOffset (r : Register) : Nat := if r = .ip then 4 else 24 - 2 * r.index

theorem frameOffset_of_saved {r : Register} (hr : r ∈ saved) : r.frameOffset = 24 - 2 * r.index := by
  revert r
  decide

theorem frameOffset_apart {r s : Register} (hr : r ∈ restored) (hs : s ∈ restored) (ne : s ≠ r) :
    s.frameOffset < r.frameOffset ∨ r.frameOffset + 2 ≤ s.frameOffset := by
  have apart : ∀ r ∈ restored, ∀ s ∈ restored, s ≠ r →
      s.frameOffset < r.frameOffset ∨ r.frameOffset + 2 ≤ s.frameOffset := by decide
  exact apart r hr s hs ne

end Register

namespace Machine

variable {m now : Machine Memory} {r : Register} {a n : Nat} {α β : Type}

/-- A return from `m` on its way: the word at `a` is the next one that it pops. -/
structure Unwinding (m : Machine Memory) (a : Nat) (now : Machine Memory) : Prop where
  reached : ∃ k, a = (m.reg .fp).toNat + 2 + 2 * k ∧
    ∀ j < k, (m.reg .fp).toNat + 2 + 2 * j + 2 ≤ m.store.size
  sp : (now.reg .sp).toNat + 2 = a
  store : now.store = m.store
  acc : now.reg .acc = m.reg .acc
  fp : now.reg .fp = m.reg .fp
  restored : ∀ r ∈ Register.restored, now.reg r =
    if (m.reg .fp).toNat + r.frameOffset < a
      then m.store.wordAt ((m.reg .fp).toNat + r.frameOffset) else m.reg r
  frameWords : now.frameWords =
    if (m.reg .fp).toNat + 2 < a
      then m.marker - UInt16.ofNat ((a - (m.reg .fp).toNat - 4) / 2) else m.frameWords

theorem unwinding_start (m : Machine Memory) :
    m.Unwinding ((m.reg .fp).toNat + 2) (m.setReg .sp (m.reg .fp)) := by
  have offset : ∀ r ∈ Register.restored, Register.sp ≠ r ∧ 4 ≤ r.frameOffset := by decide
  constructor
  · exact ⟨0, rfl, nofun⟩
  · rw [reg_setReg_self]
  · rfl
  · exact reg_setReg_of_ne (by decide)
  · exact reg_setReg_of_ne (by decide)
  · intro r hr
    rw [if_neg (by have := (offset r hr).2; omega)]
    exact reg_setReg_of_ne (offset r hr).1
  · rw [if_neg (Nat.lt_irrefl _)]
    rfl

namespace Unwinding

variable (h : m.Unwinding a now)
include h

theorem reached_next (fits : a + 2 ≤ m.store.size) :
    ∃ k, a + 2 = (m.reg .fp).toNat + 2 + 2 * k ∧
      ∀ j < k, (m.reg .fp).toNat + 2 + 2 * j + 2 ≤ m.store.size := by
  obtain ⟨k, rfl, -⟩ := h.reached
  exact ⟨k + 1, by omega, fun j hj => by omega⟩

theorem toNat_sp_next (small : m.store.size ≤ 65536) (fits : a + 2 ≤ m.store.size) :
    (now.popped.reg .sp).toNat + 2 = a + 2 := by
  have hsp := h.sp
  rw [toNat_sp_popped (by omega), hsp]

theorem frameWords_next (marked : (m.reg .fp).toNat + 4 ≤ a) : now.popped.frameWords =
    if (m.reg .fp).toNat + 2 < a + 2
      then m.marker - UInt16.ofNat ((a + 2 - (m.reg .fp).toNat - 4) / 2) else m.frameWords := by
  have next : (a + 2 - (m.reg .fp).toNat - 4) / 2 = (a - (m.reg .fp).toNat - 4) / 2 + 1 := by omega
  rw [frameWords_popped, h.frameWords, if_pos (by omega), if_pos (by omega), next,
    UInt16.ofNat_add]
  grind

theorem mark (small : m.store.size ≤ 65536) (first : a = (m.reg .fp).toNat + 2)
    (fits : a + 2 ≤ m.store.size) :
    m.Unwinding (a + 2) { now.popped with frameWords := m.marker } := by
  have offset : ∀ r ∈ Register.restored, Register.sp ≠ r ∧ 4 ≤ r.frameOffset := by decide
  constructor
  · exact h.reached_next fits
  · exact h.toNat_sp_next small fits
  · exact h.store
  · exact (reg_popped_of_ne (by decide)).trans h.acc
  · exact (reg_popped_of_ne (by decide)).trans h.fp
  · intro r hr
    obtain ⟨hsp, low⟩ := offset r hr
    have before := h.restored r hr
    rw [if_neg (by omega)] at before ⊢
    exact (reg_popped_of_ne hsp).trans before
  · have zero : (a + 2 - (m.reg .fp).toNat - 4) / 2 = 0 := by omega
    rw [if_pos (by omega), zero]
    simp

theorem restore (small : m.store.size ≤ 65536) (hr : r ∈ Register.restored)
    (place : a = (m.reg .fp).toNat + r.frameOffset) (fits : a + 2 ≤ m.store.size) :
    m.Unwinding (a + 2) (now.popped.setReg r (m.store.wordAt a)) := by
  have offset : ∀ r ∈ Register.restored,
      r ≠ .sp ∧ r ≠ .acc ∧ r ≠ .fp ∧ 4 ≤ r.frameOffset := by decide
  obtain ⟨hsp, hacc, hfp, low⟩ := offset r hr
  constructor
  · exact h.reached_next fits
  · rw [reg_setReg_of_ne hsp]
    exact h.toNat_sp_next small fits
  · exact h.store
  · rw [reg_setReg_of_ne hacc, reg_popped_of_ne (by decide), h.acc]
  · rw [reg_setReg_of_ne hfp, reg_popped_of_ne (by decide), h.fp]
  · intro s hs
    by_cases same : s = r
    · subst same
      rw [reg_setReg_self, if_pos (by omega), place]
    · rw [reg_setReg_of_ne (Ne.symm same), reg_popped_of_ne (offset s hs).1.symm, h.restored s hs]
      -- the words of other registers lie wholly below this one or above it
      rcases Register.frameOffset_apart hr hs same with below | above
      · rw [if_pos (by omega), if_pos (by omega)]
      · rw [if_neg (by omega), if_neg (by omega)]
  · exact h.frameWords_next (by omega)

theorem pass (small : m.store.size ≤ 65536) (past : (m.reg .fp).toNat + 22 ≤ a)
    (fits : a + 2 ≤ m.store.size) : m.Unwinding (a + 2) now.popped := by
  have offset : ∀ r ∈ Register.restored, Register.sp ≠ r ∧ r.frameOffset ≤ 20 := by decide
  constructor
  · exact h.reached_next fits
  · exact h.toNat_sp_next small fits
  · exact h.store
  · rw [reg_popped_of_ne (by decide), h.acc]
  · rw [reg_popped_of_ne (by decide), h.fp]
  · intro r hr
    obtain ⟨hsp, low⟩ := offset r hr
    rw [reg_popped_of_ne hsp, h.restored r hr, if_pos (by omega), if_pos (by omega)]
  · exact h.frameWords_next (by omega)

theorem pop_eq : pop now = if a + 2 ≤ m.store.size then .ok (m.store.wordAt a) now.popped
    else .error (.outOfBounds (UInt32.ofNat a) 2 m.store.size) now := by
  have hsp := h.sp
  have addr : (now.reg .sp).toUInt32 + 2 = UInt32.ofNat a := by
    have lt := (now.reg .sp).toNat_lt
    apply UInt32.toNat_inj.mp
    rw [UInt32.toNat_add, UInt16.toNat_toUInt32, UInt32.toNat_ofNat']
    simp only [UInt32.reduceToNat]
    omega
  have room : (now.reg .sp).toNat + 4 ≤ m.store.size ↔ a + 2 ≤ m.store.size := by omega
  simp only [pop_apply, h.store, addr, hsp, room]

end Unwinding

/-- A failure of the action, on the way of a return from `m`, is one at the first word outside the
memory, and leaves the return where it was. -/
def Stops (m : Machine Memory) (x : Action Memory α) (now : Machine Memory) : Prop :=
  ∀ fault left, x now = .error fault left →
    ∃ a, m.Unwinding a left ∧ m.store.size < a + 2 ∧
      fault = .outOfBounds (UInt32.ofNat a) 2 m.store.size

theorem Infallible.stops {x : Action Memory α} (hx : Infallible x) : m.Stops x now := by
  intro fault left failed
  obtain ⟨v, m', done⟩ := hx now
  cases failed.symm.trans done

theorem Stops.bind {x : Action Memory α} {g : α → Action Memory β} (hx : m.Stops x now)
    (hg : ∀ v next, x now = .ok v next → m.Stops (g v) next) : m.Stops (x >>= g) now := by
  intro fault left failed
  cases done : x now with
  | ok v next =>
    rw [bind_of_ok g done] at failed
    exact hg v next done fault left failed
  | error reason stopped =>
    rw [bind_of_error g done] at failed
    obtain ⟨rfl, rfl⟩ := EStateM.Result.error.inj failed
    exact hx _ _ done

theorem Stops.of_eq {x y : Action Memory α} {later : Machine Memory} (h : m.Stops y later)
    (same : x now = y later) : m.Stops x now := by
  intro fault left failed
  rw [same] at failed
  exact h fault left failed

theorem stops_getReg_bind {g : UInt16 → Action Memory β} (h : m.Stops (g (now.reg r)) now) :
    m.Stops (getReg r >>= g) now := h.of_eq (getReg_bind g)

theorem stops_putReg_bind {g : Unit → Action Memory β} {v : UInt16}
    (h : m.Stops (g ()) (now.setReg r v)) : m.Stops (putReg r v >>= g) now :=
  h.of_eq (putReg_bind g)

theorem stops_setFrameWords_bind {g : Unit → Action Memory β} {v : UInt16}
    (h : m.Stops (g ()) { now with frameWords := v }) : m.Stops (setFrameWords v >>= g) now :=
  h.of_eq (setFrameWords_bind g)

theorem Unwinding.stops_pop_bind (h : m.Unwinding a now) {g : UInt16 → Action Memory β}
    (hg : a + 2 ≤ m.store.size → m.Stops (g (m.store.wordAt a)) now.popped) :
    m.Stops (pop >>= g) now := by
  have hpop := h.pop_eq
  intro fault left failed
  by_cases fits : a + 2 ≤ m.store.size
  · rw [if_pos fits] at hpop
    rw [bind_of_ok g hpop] at failed
    exact hg fits fault left failed
  · rw [if_neg fits] at hpop
    rw [bind_of_error g hpop] at failed
    obtain ⟨rfl, rfl⟩ := EStateM.Result.error.inj failed
    exact ⟨a, h, Nat.lt_of_not_le fits, rfl⟩

theorem Unwinding.popRegisters {rs : List Register} (small : m.store.size ≤ 65536)
    (h : m.Unwinding a now) (hrs : ∀ r ∈ rs, r ∈ Register.restored)
    (places : ∀ i (hi : i < rs.length), a + 2 * i = (m.reg .fp).toNat + rs[i].frameOffset) :
    m.Stops (popRegisters rs) now ∧
      ∀ v next, popRegisters rs now = .ok v next → m.Unwinding (a + 2 * rs.length) next := by
  induction rs generalizing a now with
  | nil =>
    refine ⟨(infallible_pure ()).stops, fun v next done => ?_⟩
    cases done
    exact h
  | cons r rs ih =>
    have later (fits : a + 2 ≤ m.store.size) := ih (a := a + 2)
      (h.restore small (hrs r List.mem_cons_self) (places 0 (Nat.succ_pos _)) fits)
      (fun s hs => hrs s (List.mem_cons_of_mem _ hs))
      (fun i hi => by
        have place := places (i + 1) (Nat.succ_lt_succ hi)
        rw [List.getElem_cons_succ] at place
        omega)
    rw [Machine.popRegisters]
    constructor
    · exact h.stops_pop_bind fun fits => (later fits).1
    · intro v next done
      obtain ⟨word, mid, popped, rest⟩ := bind_eq_ok_iff.mp done
      rw [h.pop_eq] at popped
      by_cases fits : a + 2 ≤ m.store.size
      · rw [if_pos fits] at popped
        obtain ⟨rfl, rfl⟩ := EStateM.Result.ok.inj popped
        have last := (later fits).2 v next rest
        rwa [show a + 2 + 2 * rs.length = a + 2 * (r :: rs).length by
          rw [List.length_cons]; omega] at last
      · rw [if_neg fits] at popped
        cases popped

theorem Unwinding.discard (small : m.store.size ≤ 65536) (h : m.Unwinding a now)
    (past : (m.reg .fp).toNat + 22 ≤ a) : m.Stops (discard n) now := by
  induction n generalizing a now with
  | zero => exact (infallible_pure ()).stops
  | succ n ih => exact h.stops_pop_bind fun fits => ih (h.pass small past fits) (by omega)

theorem stops_popState (small : m.store.size ≤ 65536) : m.Stops popState m := by
  have places : ∀ i (hi : i < Register.saved.reverse.length),
      Register.saved.reverse[i].frameOffset = 6 + 2 * i := by decide
  rw [popState]
  apply stops_getReg_bind
  apply stops_putReg_bind
  -- the marker
  apply (unwinding_start m).stops_pop_bind
  intro fits
  apply stops_setFrameWords_bind
  have marked := (unwinding_start m).mark small rfl fits
  -- the return address
  apply marked.stops_pop_bind
  intro fits
  apply stops_putReg_bind
  have resumed := marked.restore (r := .ip) small (by decide) rfl fits
  -- the saved registers
  have saved : ∀ r ∈ Register.saved.reverse, r ∈ Register.restored := by decide
  obtain ⟨stops, passed⟩ := resumed.popRegisters small saved (fun i hi => by rw [places i hi]; omega)
  apply stops.bind
  intro _ next done
  have counted := passed () next done
  -- the count and the arguments
  apply counted.stops_pop_bind
  intro fits
  have arguments := counted.pass small (Nat.le_refl _) fits
  apply (arguments.discard small (Nat.le_add_right _ 2)).bind
  intro _ _ _
  exact ((infallible_putReg .fp _).bind fun _ => infallible_pure _).stops

/-- A return, on whatever `fp` points to. It goes through exactly if the frame lies in the memory
together with as many words above it as its count says. If it does not go through, it stops at the
first of the words above `fp` that is not wholly in the memory. The registers whose words lie below
that one have been restored by then, and the others have not been touched. -/
theorem return_on_any_stack (m : Machine Memory) (small : m.store.size ≤ 65536) :
    let f := (m.reg .fp).toNat
    let size := m.store.size
    let word := m.store.wordAt
    let n := (word (f + 22)).toNat
    ((∃ event back, popState m = .ok event back) ↔ f + 24 ≤ size ∧ f + 24 + 2 * n ≤ size) ∧
    (∀ event back, popState m = .ok event back →
      back.reg .ip = word (f + 4) ∧
      (∀ r ∈ Register.saved, back.reg r = word (f + 24 - 2 * r.index)) ∧
      (back.reg .sp).toNat = f + 22 + 2 * n ∧ back.reg .fp = m.reg .fp + word (f + 2) ∧
      back.frameWords = word (f + 2) - 10 - word (f + 22) ∧ back.reg .acc = m.reg .acc ∧
      back.store = m.store) ∧
    (¬ (f + 24 ≤ size ∧ f + 24 + 2 * n ≤ size) →
      ∃ a left, (∃ k, a = f + 2 + 2 * k ∧ ∀ j < k, f + 2 + 2 * j + 2 ≤ size) ∧ size < a + 2 ∧
        popState m = .error (.outOfBounds (UInt32.ofNat a) 2 size) left ∧
        (left.reg .sp).toNat + 2 = a ∧ left.store = m.store ∧ left.reg .acc = m.reg .acc ∧
        left.reg .fp = m.reg .fp ∧
        left.frameWords =
          (if f + 2 < a then word (f + 2) - UInt16.ofNat ((a - f - 4) / 2) else m.frameWords) ∧
        left.reg .ip = (if f + 4 < a then word (f + 4) else m.reg .ip) ∧
        ∀ r ∈ Register.saved, left.reg r =
          if f + 24 - 2 * r.index < a then word (f + 24 - 2 * r.index) else m.reg r) := by
  intro f size word n
  have succeeds {event back} : popState m = .ok event back ↔ f + 24 + 2 * n ≤ size ∧
      event = .returned m.returnAddress m.argCount (m.reg .fp + m.marker) ∧ back = m.unwound :=
    popState_eq_ok_iff small
  refine ⟨⟨?_, ?_⟩, ?_, ?_⟩
  · rintro ⟨event, back, done⟩
    have room := (succeeds.mp done).1
    exact ⟨by omega, room⟩
  · rintro ⟨-, room⟩
    exact ⟨_, _, succeeds.mpr ⟨room, rfl, rfl⟩⟩
  · intro event back done
    obtain ⟨room, -, rfl⟩ := succeeds.mp done
    have within : f + 24 ≤ 65536 := by omega
    refine ⟨reg_ip_unwound, fun r hr => reg_saved_unwound within hr, ?_, reg_fp_unwound,
      frameWords_unwound, reg_acc_unwound, store_unwound⟩
    have count : n = m.argCount.toNat := rfl
    rw [reg_sp_unwound, UInt16.toNat_add, UInt16.toNat_add, UInt16.toNat_mul]
    simp only [UInt16.reduceToNat]
    omega
  · intro short
    cases done : popState m with
    | ok event back =>
      have room := (succeeds.mp done).1
      exact absurd ⟨by omega, room⟩ short
    | error fault left =>
      obtain ⟨a, way, outside, rfl⟩ := stops_popState small fault left done
      refine ⟨a, left, way.reached, outside, rfl, way.sp, way.store, way.acc, way.fp,
        way.frameWords, way.restored .ip (by decide), fun r hr => ?_⟩
      have hrestored : r ∈ Register.restored :=
        List.mem_cons_of_mem _ (List.mem_reverse.mpr hr)
      have index : ∀ r ∈ Register.saved, r.index ≤ 9 := by decide
      have place : f + r.frameOffset = f + 24 - 2 * r.index := by
        have := index r hr
        rw [Register.frameOffset_of_saved hr]
        omega
      rw [← place]
      exact way.restored r hrestored

/-- A frame that no call has built, with a count of two, in a memory that has room for both words,
and the same frame in one that ends in its last word. -/
theorem foreign_frame_is_taken_or_cut :
    let framed (size : Nat) : Machine Memory :=
      ⟨((RegisterFile.initial size).set .fp 10).set .r1 7,
        ((Memory.zero size).putWord 14 0x102).putWord 32 2, 0, .strict⟩
    (framed 40).store.size ≤ 65536 ∧ (framed 30).store.size ≤ 65536 ∧
      (∃ event back, popState (framed 40) = .ok event back ∧
        back.reg .ip = 0x102 ∧ back.reg .r1 = 0 ∧ (back.reg .sp).toNat = 36) ∧
      ∃ left, popState (framed 30) = .error (.outOfBounds 30 2 30) left ∧
        left.reg .ip = 0x102 ∧ left.reg .r1 = 7 ∧ (left.reg .sp).toNat = 28 := by
  intro framed
  have small : (framed 40).store.size ≤ 65536 ∧ (framed 30).store.size ≤ 65536 := by decide
  refine ⟨small.1, small.2, ?_, ?_⟩
  · obtain ⟨succeeds, gives, -⟩ := return_on_any_stack (framed 40) small.1
    obtain ⟨event, back, done⟩ := succeeds.mpr (by decide)
    obtain ⟨ip, saved, sp, -⟩ := gives event back done
    have count : ((framed 40).reg .fp).toNat + 22 +
        2 * ((framed 40).store.wordAt (((framed 40).reg .fp).toNat + 22)).toNat = 36 := by decide
    have target : (framed 40).store.wordAt (((framed 40).reg .fp).toNat + 4) = 0x102 := by decide
    have first : (framed 40).store.wordAt (((framed 40).reg .fp).toNat + 24 - 2 * Register.r1.index) = 0 := by
      decide
    exact ⟨event, back, done, ip.trans target, (saved .r1 (by decide)).trans first, sp.trans count⟩
  · obtain ⟨-, -, stops⟩ := return_on_any_stack (framed 30) small.2
    obtain ⟨a, left, ⟨k, place, before⟩, outside, failed, sp, -, -, -, -, ip, saved⟩ :=
      stops (by decide)
    have frame : ((framed 30).reg .fp).toNat = 10 := by decide
    have size : (framed 30).store.size = 30 := by decide
    rw [frame] at place before ip saved
    rw [size] at before outside failed
    have ninth : a = 30 := by
      have := before 9
      omega
    subst ninth
    have target : (framed 30).store.wordAt (10 + 4) = 0x102 := by decide
    have first : (framed 30).reg .r1 = 7 := by decide
    exact ⟨left, failed, ip.trans target, (saved .r1 (by decide)).trans first, by omega⟩

end Machine

end FrameMachine
