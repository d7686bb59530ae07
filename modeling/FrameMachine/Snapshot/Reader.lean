import FrameMachine.Json
import FrameMachine.Snapshot.Basic

/-!
# Reading snapshots

A snapshot is read from an object with its fields as members, in any order and
among any others, or from an array of the fields in order. Every register has to
be there; the count of frame words is zero when it is not.
-/
namespace FrameMachine.Snapshot

open Json

namespace Field

def ofName? (name : List Char) : Option Field := all.find? fun f => f.name.toList == name

end Field

/-- The fields read so far, the last one first. -/
abbrev Known := List (Field × UInt16)

/-- What is wrong with a value that is of no wanted kind. Containers are not looked
into. -/
def valueFault (s : List Char) : Refusal :=
  let checked : Except Refusal Unit :=
    match s with
    | [] => .error .truncated
    | '"' :: s => (readString [] s).map fun _ => ()
    | '[' :: _ | '{' :: _ => .ok ()
    | c :: s =>
      if c = '-' ∨ c.isDigit then (readNumber (c :: s)).map fun _ => ()
      else (skipWord c s).map fun _ => ()
  match checked with
  | .ok () => .mismatched
  | .error fault => fault

/-- A field holds a natural number below `2 ^ 16`, written with digits alone. -/
def wordOf (n : Number) : Except Refusal UInt16 :=
  match n.natural? with
  | some value => if value < UInt16.size then .ok (UInt16.ofNat value) else .error .mismatched
  | none => .error .mismatched

def readWord (s : List Char) : Except Refusal (UInt16 × List Char) :=
  if (skipBlank s).head?.any Char.isDigit then do
    let (n, rest) ← readNumber (skipBlank s)
    let value ← wordOf n
    return (value, rest)
  else .error (valueFault (skipBlank s))

/-- A member, after the quote that opens its name. A second value for a field is
refused at the name; other names may come again. -/
def readMember (known : Known) (s : List Char) : Except Refusal (Known × List Char) := do
  let (name, s) ← readString [] s
  match Field.ofName? name with
  | some field =>
    if (known.lookup field).isSome then throw .mismatched
    let s ← expectChar ':' s
    let (value, s) ← readWord s
    return ((field, value) :: known, s)
  | none =>
    let s ← expectChar ':' s
    let s ← skipValue s
    return (known, s)

theorem length_readWord_lt {s : List Char} {found : UInt16 × List Char}
    (h : readWord s = .ok found) : found.2.length < s.length := by
  have l₀ := length_skipBlank_le s
  unfold readWord at h
  split at h
  · obtain ⟨n, hn, h⟩ := exists_of_bind_eq_ok h
    obtain ⟨value, _, h⟩ := exists_of_bind_eq_ok h
    have l₁ := length_readNumber_lt hn
    obtain rfl := Except.ok.inj h
    exact Nat.lt_of_lt_of_le l₁ l₀
  · cases h

theorem length_readMember_lt {known : Known} {s : List Char} {found : Known × List Char}
    (h : readMember known s = .ok found) : found.2.length < s.length := by
  obtain ⟨name, h₁, h⟩ := exists_of_bind_eq_ok h
  have l₁ := length_readString_lt h₁
  dsimp only at h
  split at h
  · split at h
    · cases h
    obtain ⟨s₂, h₂, h⟩ := exists_of_bind_eq_ok h
    obtain ⟨value, h₃, h⟩ := exists_of_bind_eq_ok h
    have l₂ := length_expectChar_lt h₂
    have l₃ := length_readWord_lt h₃
    cases h
    dsimp only
    omega
  · obtain ⟨s₂, h₂, h⟩ := exists_of_bind_eq_ok h
    obtain ⟨s₃, h₃, h⟩ := exists_of_bind_eq_ok h
    have l₂ := length_expectChar_lt h₂
    have l₃ := length_skipValue_le h₃
    cases h
    dsimp only
    omega

/-- What stands between a member and the next: the text of that one after the quote
that opens its name, or none after the closing brace. -/
def readSeparator (s : List Char) : Except Refusal (Bool × List Char) :=
  match skipBlank s with
  | [] => .error .truncated
  | '}' :: s => .ok (false, s)
  | ',' :: s => (expectChar '"' s).map (true, ·)
  | _ :: _ => .error .malformed

theorem length_readSeparator_lt {s : List Char} {found : Bool × List Char}
    (h : readSeparator s = .ok found) : found.2.length < s.length := by
  have l₀ := length_skipBlank_le s
  unfold readSeparator at h
  split at h
  · cases h
  next s₁ heq =>
    cases h
    rw [heq] at l₀
    exact l₀
  next s₁ heq =>
    obtain ⟨r, hr, rfl⟩ := exists_of_map_eq_ok h
    have := length_expectChar_lt hr
    rw [heq, List.length_cons] at l₀
    dsimp only
    omega
  · cases h

def readMembers (known : Known) (s : List Char) : Except Refusal (Known × List Char) :=
  match h₁ : readMember known s with
  | .error fault => .error fault
  | .ok (known, s₁) =>
    match h₂ : readSeparator s₁ with
    | .error fault => .error fault
    | .ok (false, s₂) => .ok (known, s₂)
    | .ok (true, s₂) =>
      have : s₁.length < s.length := length_readMember_lt h₁
      have : s₂.length < s₁.length := length_readSeparator_lt h₂
      readMembers known s₂
termination_by s.length

def readObject (s : List Char) : Except Refusal (Known × List Char) :=
  match skipBlank s with
  | '}' :: s => .ok ([], s)
  | s => do
    let s ← expectChar '"' s
    readMembers [] s

/-- The elements of an array for the given fields; there may be fewer. -/
def readElements (known : Known) : List Field → List Char → Except Refusal (Known × List Char)
  | [], s => (expectChar ']' s).map (known, ·)
  | field :: fields, s =>
    match known, skipBlank s with
    | _, [] => .error .truncated
    | known, ']' :: s => .ok (known, s)
    | [], s => readElement [] field fields s
    | known@(_ :: _), ',' :: s =>
      match skipBlank s with
      | [] => .error .truncated
      | ']' :: _ => .error .malformed
      | s => readElement known field fields s
    | _ :: _, _ :: _ => .error .malformed
where
  readElement (known : Known) (field : Field) (fields : List Field) (s : List Char) :
      Except Refusal (Known × List Char) := do
    let (value, s) ← readWord s
    readElements ((field, value) :: known) fields s

def ofKnown? (known : Known) : Option Snapshot :=
  if Register.all.all fun r => (known.lookup (.register r)).isSome then
    some (ofValues (fun r => (known.lookup (.register r)).getD 0)
      ((known.lookup .frameWords).getD 0))
  else none

/-- A missing register is found where the object or array closes. -/
def complete (found : Known × List Char) : Except Refusal (Snapshot × List Char) :=
  match ofKnown? found.1 with
  | some snapshot => .ok (snapshot, found.2)
  | none => .error .mismatched

def readValue (s : List Char) : Except Refusal (Snapshot × List Char) :=
  match skipBlank s with
  | '{' :: s => do complete (← readObject s)
  | '[' :: s => do complete (← readElements [] Field.all s)
  | s => .error (valueFault s)

/-- Only blanks may follow the value. -/
def parse (text : String) : Except Refusal Snapshot := do
  let (snapshot, rest) ← readValue text.toList
  if skipBlank rest = [] then return snapshot else throw .malformed

end FrameMachine.Snapshot
