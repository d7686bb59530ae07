import FrameMachine.Proofs.Stack.Words

/-!
# The stack as a bounded list

Pushes and pops on a machine whose stack is fresh, against a list of at most
`size / 2` live words. Both ends are sharp: a full stack refuses a push, and it refuses a
pop as well, since the address of the word to be popped does not wrap with `sp`.
The one exception is a push on 32768 words, where `sp` has wrapped onto the top word.
-/
namespace FrameMachine

inductive StackCall where
  | push (v : UInt16)
  | pop
  deriving DecidableEq, Repr

/-- The live words, the oldest first, and the slots that any push has written so far. The
oldest live word is in slot zero. -/
structure Lifo where
  live : List UInt16
  written : List Nat
  deriving DecidableEq, Repr

namespace Lifo

def empty : Lifo := ⟨[], []⟩

def Accepts (capacity : Nat) (l : Lifo) : StackCall → Prop
  | .push _ => l.live.length < capacity
  | .pop => 0 < l.live.length ∧ l.live.length < capacity

instance (capacity : Nat) (l : Lifo) : (c : StackCall) → Decidable (l.Accepts capacity c)
  | .push _ => inferInstanceAs (Decidable (_ < _))
  | .pop => inferInstanceAs (Decidable (_ ∧ _))

def answer (l : Lifo) : StackCall → Option UInt16
  | .push _ => none
  | .pop => l.live.getLast?

def next (l : Lifo) : StackCall → Lifo
  | .push v => ⟨l.live ++ [v], l.live.length :: l.written⟩
  | .pop => { l with live := l.live.dropLast }

def step (capacity : Nat) (l : Lifo) (c : StackCall) : Lifo :=
  if l.Accepts capacity c then l.next c else l

/-- A push on 32768 live words is left out: there `sp` points to the top word again. -/
def Allows (l : Lifo) : StackCall → Prop
  | .push _ => l.live.length ≠ 32768
  | .pop => True

instance (l : Lifo) : (c : StackCall) → Decidable (l.Allows c)
  | .push _ => inferInstanceAs (Decidable (_ ≠ _))
  | .pop => isTrue trivial

def AllowsAll (capacity : Nat) : Lifo → List StackCall → Prop
  | _, [] => True
  | l, c :: rest => l.Allows c ∧ AllowsAll capacity (l.step capacity c) rest

instance decidableAllowsAll (capacity : Nat) :
    (l : Lifo) → (calls : List StackCall) → Decidable (l.AllowsAll capacity calls)
  | _, [] => isTrue trivial
  | l, c :: rest =>
    have := decidableAllowsAll capacity (l.step capacity c) rest
    inferInstanceAs (Decidable (_ ∧ _))

end Lifo

namespace Machine

def stackCall : StackCall → Action Memory (Option UInt16)
  | .push v => do
    push v
    return none
  | .pop => do
    let v ← pop
    return some v

def afterCall (m : Machine Memory) (c : StackCall) : Machine Memory :=
  match stackCall c m with
  | .ok _ m => m
  | .error _ m => m

/-- The machine holds the list: `loaded` is its memory before the first push. -/
structure Represents (loaded : Memory) (l : Lifo) (m : Machine Memory) : Prop where
  size : m.store.size = loaded.size
  depth : l.live.length ≤ loaded.size / 2
  sp : m.reg .sp = UInt16.ofNat loaded.size - 2 - 2 * UInt16.ofNat l.live.length
  frameWords : m.frameWords = UInt16.ofNat l.live.length
  stored : ∀ i w, l.live[i]? = some w → m.store.HasWord (loaded.size - 2 - 2 * i) w
  unwritten : ∀ k, (∀ i ∈ l.written, k ≠ loaded.size - 2 - 2 * i ∧ k ≠ loaded.size - 1 - 2 * i) →
    m.store.bytes[k]? = loaded.bytes[k]?

variable {loaded : Memory} {l : Lifo} {m : Machine Memory} {c : StackCall}

theorem initial_represents (store : Memory) (policy : OpcodePolicy) :
    Represents store Lifo.empty (initial store policy) := by
  constructor
  · rfl
  · exact Nat.zero_le _
  · rw [reg_sp_initial]
    simp [Lifo.empty]
  · rfl
  · intro i w h
    cases h
  · intro k _
    rfl

theorem Represents.toNat_sp (h : Represents loaded l m) (small : loaded.size ≤ 65536)
    (room : l.live.length < loaded.size / 2) :
    (m.reg .sp).toNat = loaded.size - 2 - 2 * l.live.length := by
  rw [h.sp, UInt16.toNat_sub, UInt16.toNat_sub, UInt16.toNat_mul, UInt16.toNat_ofNat',
    UInt16.toNat_ofNat']
  simp only [UInt16.reduceToNat]
  omega

theorem Represents.toNat_sp_full (h : Represents loaded l m) (full : l.live.length = loaded.size / 2) :
    (m.reg .sp).toNat = 65534 + loaded.size % 2 := by
  rw [h.sp, UInt16.toNat_sub, UInt16.toNat_sub, UInt16.toNat_mul, UInt16.toNat_ofNat',
    UInt16.toNat_ofNat']
  simp only [UInt16.reduceToNat]
  omega

theorem Represents.pushed (h : Represents loaded l m) (small : loaded.size ≤ 65536) (v : UInt16)
    (room : l.live.length < loaded.size / 2) :
    Represents loaded (l.next (.push v)) (m.pushed v) := by
  have hsp := h.toNat_sp small room
  constructor
  · rw [store_pushed, Memory.size_putWord, h.size]
  · simp only [Lifo.next, List.length_append, List.length_singleton]
    omega
  · simp only [Lifo.next, List.length_append, List.length_singleton]
    rw [reg_sp_pushed, h.sp, UInt16.ofNat_add]
    grind
  · simp only [Lifo.next, List.length_append, List.length_singleton]
    rw [frameWords_pushed, h.frameWords, UInt16.ofNat_add]
    rfl
  · intro i w hw
    rw [store_pushed, hsp]
    simp only [Lifo.next] at hw
    rcases Nat.lt_or_ge i l.live.length with hlt | hge
    · rw [List.getElem?_append_left hlt] at hw
      exact (h.stored i w hw).putWord (by omega)
    · rw [List.getElem?_append_right hge, List.getElem?_singleton] at hw
      split at hw
      case isTrue hi =>
        obtain rfl : i = l.live.length := by omega
        obtain rfl : v = w := Option.some.inj hw
        exact Memory.hasWord_putWord (by rw [h.size]; omega)
      case isFalse => cases hw
  · intro k hk
    obtain ⟨hhi, hlo⟩ := hk l.live.length List.mem_cons_self
    rw [store_pushed, hsp, Memory.byte_putWord_of_apart (by omega)]
    exact h.unwritten k fun i hi => hk i (List.mem_cons_of_mem _ hi)

theorem Represents.popped (h : Represents loaded l m) (nonempty : 0 < l.live.length) :
    Represents loaded (l.next .pop) m.popped := by
  have hlen : l.live.dropLast.length = l.live.length - 1 := List.length_dropLast
  have hofNat : UInt16.ofNat (l.live.length - 1) = UInt16.ofNat l.live.length - 1 := by
    obtain ⟨n, hn⟩ : ∃ n, l.live.length = n + 1 := ⟨l.live.length - 1, by omega⟩
    rw [hn, UInt16.ofNat_add, Nat.add_sub_cancel]
    grind
  constructor
  · exact h.size
  · simp only [Lifo.next, hlen]
    have := h.depth
    omega
  · simp only [Lifo.next, hlen, hofNat]
    rw [reg_sp_popped, h.sp]
    grind
  · simp only [Lifo.next, hlen, hofNat]
    rw [frameWords_popped, h.frameWords]
  · intro i w hw
    simp only [Lifo.next, List.getElem?_dropLast] at hw
    split at hw
    case isTrue => exact h.stored i w hw
    case isFalse => cases hw
  · exact h.unwritten

theorem stackCall_represents (h : Represents loaded l m) (small : loaded.size ≤ 65536)
    (allowed : l.Allows c) :
    if l.Accepts (loaded.size / 2) c
    then ∃ m', stackCall c m = .ok (l.answer c) m' ∧ Represents loaded (l.next c) m'
    else ∃ fault, stackCall c m = .error fault m := by
  have hdepth := h.depth
  by_cases accepted : l.Accepts (loaded.size / 2) c
  · rw [if_pos accepted]
    cases c with
    | push v =>
      have room : l.live.length < loaded.size / 2 := accepted
      have hsp := h.toNat_sp small room
      have hok : push v m = .ok () (m.pushed v) := push_of_room (by rw [hsp, h.size]; omega)
      exact ⟨_, bind_of_ok _ hok, h.pushed small v room⟩
    | pop =>
      obtain ⟨nonempty, room⟩ : 0 < l.live.length ∧ l.live.length < loaded.size / 2 := accepted
      have hsp := h.toNat_sp small room
      have hget := List.getElem?_eq_getElem (show l.live.length - 1 < l.live.length by omega)
      have hword := (h.stored _ _ hget).wordAt_eq
      have hok : pop m = .ok l.live[l.live.length - 1] m.popped := by
        rw [pop_of_room (by rw [hsp, h.size]; omega), ← hword]
        congr 2
        omega
      refine ⟨_, ?_, h.popped nonempty⟩
      rw [stackCall, bind_of_ok _ hok, Lifo.answer, List.getLast?_eq_getElem?, hget]
      rfl
  · rw [if_neg accepted]
    cases c with
    | push v =>
      have hfull : l.live.length = loaded.size / 2 :=
        Nat.le_antisymm hdepth (Nat.ge_of_not_lt accepted)
      have hne : l.live.length ≠ 32768 := allowed
      -- the last two addresses hold a word only if all 65536 bytes are there
      exact ⟨_, bind_of_error _ (push_refused (by rw [h.toNat_sp_full hfull, h.size]; omega))⟩
    | pop =>
      have hends : l.live.length = 0 ∨ l.live.length = loaded.size / 2 := by
        rcases Nat.eq_zero_or_pos l.live.length with hzero | hpos
        · exact Or.inl hzero
        · exact Or.inr (Nat.le_antisymm hdepth (Nat.ge_of_not_lt fun hlt => accepted ⟨hpos, hlt⟩))
      refine ⟨_, bind_of_error _ (pop_refused ?_)⟩
      rw [h.size]
      rcases Nat.lt_or_ge l.live.length (loaded.size / 2) with hlt | hge
      · rw [h.toNat_sp small hlt]
        omega
      · rw [h.toNat_sp_full (Nat.le_antisymm hdepth hge)]
        omega

theorem afterCall_represents (h : Represents loaded l m) (small : loaded.size ≤ 65536)
    (allowed : l.Allows c) : Represents loaded (l.step (loaded.size / 2) c) (m.afterCall c) := by
  have hcall := stackCall_represents h small allowed
  unfold Lifo.step afterCall
  by_cases accepted : l.Accepts (loaded.size / 2) c
  · rw [if_pos accepted] at hcall ⊢
    obtain ⟨m', hok, h'⟩ := hcall
    rw [hok]
    exact h'
  · rw [if_neg accepted] at hcall ⊢
    obtain ⟨fault, herror⟩ := hcall
    rw [herror]
    exact h

theorem afterCalls_represents (h : Represents loaded l m) (small : loaded.size ≤ 65536)
    {calls : List StackCall} (allowed : l.AllowsAll (loaded.size / 2) calls) :
    Represents loaded (calls.foldl (Lifo.step (loaded.size / 2)) l) (calls.foldl afterCall m) := by
  induction calls generalizing l m with
  | nil => exact h
  | cons c rest ih => exact ih (afterCall_represents h small allowed.1) allowed.2

/-- After any calls on a fresh stack, refused ones included and whatever the memory holds, the
machine holds the list, and the next call is answered as the list answers it. A refused call
leaves the whole machine as it is. -/
theorem stack_refines_bounded_list (store : Memory) (policy : OpcodePolicy)
    (calls : List StackCall) (small : store.size ≤ 65536)
    (allowed : Lifo.empty.AllowsAll (store.size / 2) calls) :
    let l := calls.foldl (Lifo.step (store.size / 2)) Lifo.empty
    let m := calls.foldl afterCall (initial store policy)
    Represents store l m ∧ ∀ c, l.Allows c →
      if l.Accepts (store.size / 2) c then ∃ m', stackCall c m = .ok (l.answer c) m'
      else ∃ fault, stackCall c m = .error fault m := by
  intro l m
  have h : Represents store l m :=
    afterCalls_represents (initial_represents store policy) small allowed
  refine ⟨h, fun c hc => ?_⟩
  have hcall := stackCall_represents h small hc
  split at hcall
  case isTrue accepted =>
    obtain ⟨m', hok, -⟩ := hcall
    rw [if_pos accepted]
    exact ⟨m', hok⟩
  case isFalse refused =>
    rw [if_neg refused]
    exact hcall

/-- Two words fill five bytes; the full stack then refuses a push and a pop alike. -/
theorem five_bytes_hold_two_words :
    let m := [StackCall.push 7, .pop, .push 8, .push 9].foldl afterCall
      (initial (Memory.zero 5) .strict)
    (Memory.zero 5).size ≤ 65536 ∧
      Lifo.empty.AllowsAll 2 [StackCall.push 7, .pop, .push 8, .push 9] ∧
      m.frameWords = 2 ∧ m.store.HasWord 3 8 ∧ m.store.HasWord 1 9 ∧
      (∃ fault, stackCall (.push 6) m = .error fault m) ∧
      ∃ fault, stackCall .pop m = .error fault m := by
  have small : (Memory.zero 5).size ≤ 65536 := by decide
  have allowed : Lifo.empty.AllowsAll 2 [StackCall.push 7, .pop, .push 8, .push 9] := by decide
  obtain ⟨h, next⟩ := stack_refines_bounded_list (Memory.zero 5) .strict
    [.push 7, .pop, .push 8, .push 9] small allowed
  exact ⟨small, allowed, h.frameWords, h.stored 0 8 rfl, h.stored 1 9 rfl,
    next (.push 6) (by decide), next .pop (by decide)⟩

end Machine

end FrameMachine
