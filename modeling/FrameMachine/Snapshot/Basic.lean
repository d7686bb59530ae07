import FrameMachine.Machine

/-!
# Snapshots

All registers and the count of frame words; the store and the policy are no part of it. As JSON
text a snapshot is an object with a member per register, in slot order, and one for the count. The
compact form has no blanks; the other has a line per member.
-/
namespace FrameMachine

structure Snapshot where
  ip : UInt16 := 0
  acc : UInt16 := 0
  r1 : UInt16 := 0
  r2 : UInt16 := 0
  r3 : UInt16 := 0
  r4 : UInt16 := 0
  r5 : UInt16 := 0
  r6 : UInt16 := 0
  r7 : UInt16 := 0
  r8 : UInt16 := 0
  sp : UInt16 := 0
  fp : UInt16 := 0
  frameWords : UInt16 := 0
  deriving DecidableEq

namespace Snapshot

def get (s : Snapshot) : Register → UInt16
  | .ip => s.ip
  | .acc => s.acc
  | .r1 => s.r1
  | .r2 => s.r2
  | .r3 => s.r3
  | .r4 => s.r4
  | .r5 => s.r5
  | .r6 => s.r6
  | .r7 => s.r7
  | .r8 => s.r8
  | .sp => s.sp
  | .fp => s.fp

def set (s : Snapshot) (r : Register) (value : UInt16) : Snapshot :=
  match r with
  | .ip => { s with ip := value }
  | .acc => { s with acc := value }
  | .r1 => { s with r1 := value }
  | .r2 => { s with r2 := value }
  | .r3 => { s with r3 := value }
  | .r4 => { s with r4 := value }
  | .r5 => { s with r5 := value }
  | .r6 => { s with r6 := value }
  | .r7 => { s with r7 := value }
  | .r8 => { s with r8 := value }
  | .sp => { s with sp := value }
  | .fp => { s with fp := value }

def ofValues (value : Register → UInt16) (frameWords : UInt16) : Snapshot :=
  Register.all.foldl (fun s r => s.set r (value r)) { frameWords }

def capture (f : RegisterFile) (frameWords : UInt16) : Snapshot :=
  f.toList.foldl (fun s (r, value) => s.set r value) { frameWords }

def apply (s : Snapshot) (f : RegisterFile) : RegisterFile :=
  Register.all.foldl (fun f r => f.set r (s.get r)) f

end Snapshot

namespace Machine

variable {σ : Type}

def snapshot (m : Machine σ) : Snapshot := .capture m.registers m.frameWords

def restore (m : Machine σ) (s : Snapshot) : Machine σ :=
  { m with registers := s.apply m.registers, frameWords := s.frameWords }

end Machine

end FrameMachine

namespace FrameMachine.Snapshot

inductive Field where
  | register (r : Register)
  | frameWords
  deriving DecidableEq, Repr

namespace Field

def all : List Field := Register.all.map register ++ [frameWords]

def name : Field → String
  | register r => r.name
  | frameWords => "stack_frame_words"

end Field

def field (s : Snapshot) : Field → UInt16
  | .register r => s.get r
  | .frameWords => s.frameWords

def member (s : Snapshot) (colon : String) (f : Field) : String :=
  "\"" ++ f.name ++ "\"" ++ colon ++ Numeral.decimal (s.field f).toNat

def compact (s : Snapshot) : String :=
  "\x7b" ++ ",".intercalate (Field.all.map (s.member ":")) ++ "\x7d"

def pretty (s : Snapshot) : String :=
  "\x7b\n  " ++ ",\n  ".intercalate (Field.all.map (s.member ": ")) ++ "\n\x7d"

end FrameMachine.Snapshot
