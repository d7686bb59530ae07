import FrameMachine.Proofs.Command.Ending
import FrameMachine.Proofs.Machine.Listing
import FrameMachine.Proofs.Stack.Words

/-!
# Where the command starts its machine

An image can be loaded at any 32-bit address and a memory can have any size, but the registers
have 16 bits. The machine starts at the image, with its stack at the top of the memory, exactly if
the two fit. Neither is checked: past them `ip` and `sp` are cut to 16 bits, and what is executed
first is a zero below the image.
-/
namespace FrameMachine

theorem Memory.load_zero_eq_ok {size : Nat} {start : UInt32} {image : List UInt8} {memory : Memory}
    (fits : (Memory.zero size).load start image = .ok memory) :
    memory.size = size ∧ start.toNat + image.length ≤ size ∧ memory.Holds start.toNat image ∧
      ∀ k < start.toNat, k < size → memory.bytes[k]? = some 0 := by
  have whole : (Memory.zero size).bytes.size = size := Memory.size_zero size
  rw [load_eq] at fits
  split at fits
  · next room =>
    obtain rfl := Except.ok.inj fits
    rw [size_zero] at room
    refine ⟨(size_place _ _ _).trans whole, room, holds_place (whole.symm ▸ room), ?_⟩
    intro k before inside
    change (place (Memory.zero size).bytes start.toNat image)[k]? = some 0
    rw [byte_place_of_before before]
    simp [zero, inside]
  · cases fits

namespace Command

open Machine (fetchByte step)

variable {args : Arguments} {policy : OpcodePolicy} {files : Files} {image : List UInt8}
  {c : Machine Memory}

/-- The machine stands at the image, whose first byte it fetches first, and its stack is empty at
the top word of the memory. -/
structure StartsAtImage (args : Arguments) (image : List UInt8) (c : Machine Memory) : Prop where
  ip : (c.reg .ip).toNat = args.loadAddress.toNat
  first : ∃ byte next, image.head? = some byte ∧ fetchByte c = .ok byte next
  sp : (c.reg .sp).toNat + 2 = args.memorySize.toNat
  fp : c.reg .fp = c.reg .sp

namespace Starts

theorem two_le_memorySize (start : Starts args policy files c) : 2 ≤ args.memorySize.toNat := by
  obtain ⟨_, _, -, large, -⟩ := start
  exact large

theorem reg_ip (start : Starts args policy files c) : c.reg .ip = args.loadAddress.toUInt16 := by
  obtain ⟨_, _, -, -, -, -, rfl⟩ := start
  exact Machine.reg_setReg_self

theorem reg_sp (start : Starts args policy files c) :
    c.reg .sp = UInt16.ofNat args.memorySize.toNat - 2 := by
  have size := start.size
  obtain ⟨_, _, -, -, -, -, rfl⟩ := start
  rw [Machine.reg_setReg_of_ne (by decide), Machine.reg_sp_initial]
  exact congrArg (UInt16.ofNat · - 2) size

theorem reg_fp (start : Starts args policy files c) : c.reg .fp = c.reg .sp := by
  obtain ⟨_, _, -, -, -, -, rfl⟩ := start
  rw [Machine.reg_setReg_of_ne (by decide), Machine.reg_setReg_of_ne (by decide),
    Machine.reg_fp_initial, Machine.reg_sp_initial]

theorem toNat_ip (start : Starts args policy files c) :
    (c.reg .ip).toNat = args.loadAddress.toNat % 65536 := by
  rw [start.reg_ip]
  exact UInt32.toNat_toUInt16 _

theorem toNat_sp (start : Starts args policy files c) :
    (c.reg .sp).toNat = (args.memorySize.toNat - 2) % 65536 := by
  have large := start.two_le_memorySize
  rw [start.reg_sp, UInt16.toNat_sub, UInt16.toNat_ofNat']
  simp only [UInt16.reduceToNat]
  omega

theorem holds (start : Starts args policy files c) (read : files args.program = .ok image) :
    c.store.size = args.memorySize.toNat ∧
    args.loadAddress.toNat + image.length ≤ args.memorySize.toNat ∧
    c.store.Holds args.loadAddress.toNat image ∧
    ∀ k < args.loadAddress.toNat, k < args.memorySize.toNat → c.store.bytes[k]? = some 0 := by
  obtain ⟨loaded, memory, read', -, -, fits, rfl⟩ := start
  obtain rfl : loaded = image := Except.ok.inj (read'.symm.trans read)
  exact Memory.load_zero_eq_ok fits

theorem fetches_first (start : Starts args policy files c)
    (read : files args.program = .ok image) (nonempty : image ≠ [])
    (low : args.loadAddress.toNat < 65536) :
    ∃ byte next, image.head? = some byte ∧ fetchByte c = .ok byte next := by
  obtain ⟨byte, rest, rfl⟩ := List.exists_cons_of_ne_nil nonempty
  obtain ⟨-, -, holds, -⟩ := start.holds read
  exact ⟨byte, _, rfl, Machine.fetchByte_of_holds start.reg_ip low holds⟩

/-- Cut to 16 bits `ip` is below the image, where the memory is still zero. -/
theorem fetchByte_of_high (start : Starts args policy files c)
    (read : files args.program = .ok image) (high : 65536 ≤ args.loadAddress.toNat) :
    fetchByte c = .ok 0 (c.advanced 1) := by
  obtain ⟨size, room, -, zeros⟩ := start.holds read
  have hip := start.toNat_ip
  have zero := zeros (c.reg .ip).toNat (by omega) (by omega)
  rw [Machine.fetchByte_of_room (by rw [size]; omega), Array.getD_eq_getD_getElem?, zero,
    Option.getD_some]

theorem step_of_high (start : Starts args policy files c)
    (read : files args.program = .ok image) (high : 65536 ≤ args.loadAddress.toNat) :
    step c = Machine.meetUnknown 0 (c.advanced 1) := by
  rw [step, Machine.bind_of_ok _ (start.fetchByte_of_high read high)]
  rfl

theorem startsAtImage_iff (start : Starts args policy files c)
    (read : files args.program = .ok image) (nonempty : image ≠ []) :
    StartsAtImage args image c ↔
      args.loadAddress.toNat < 65536 ∧ args.memorySize.toNat ≤ 65537 := by
  have hip := start.toNat_ip
  have hsp := start.toNat_sp
  constructor
  · intro told
    have atImage := told.ip
    have atTop := told.sp
    omega
  · rintro ⟨low, small⟩
    have large := start.two_le_memorySize
    constructor
    · omega
    · exact start.fetches_first read nonempty low
    · omega
    · exact start.reg_fp

end Starts

/-- The machine that is set up for an image starts at it, with its stack at the top of the memory,
exactly if the address of the image and that of the top word have 16 bits. Otherwise they are cut;
then the first byte fetched is a zero in front of the image, and the first step meets it as an
unknown opcode. -/
theorem starts_at_image_iff (read : files args.program = .ok image) (nonempty : image ≠ [])
    (ready : setUp args policy files = .ok c) :
    (StartsAtImage args image c ↔
      args.loadAddress.toNat < 65536 ∧ args.memorySize.toNat ≤ 65537) ∧
    (c.reg .ip).toNat = args.loadAddress.toNat % 65536 ∧
    (c.reg .sp).toNat = (args.memorySize.toNat - 2) % 65536 ∧
    c.reg .fp = c.reg .sp ∧
    c.store.Holds args.loadAddress.toNat image ∧
    (args.loadAddress.toNat < 65536 →
      ∃ byte next, image.head? = some byte ∧ fetchByte c = .ok byte next) ∧
    (65536 ≤ args.loadAddress.toNat → fetchByte c = .ok 0 (c.advanced 1) ∧
      step c = Machine.meetUnknown 0 (c.advanced 1)) := by
  have start := starts_of_setUp ready
  obtain ⟨-, -, holds, -⟩ := start.holds read
  refine ⟨start.startsAtImage_iff read nonempty, start.toNat_ip, start.toNat_sp, start.reg_fp,
    holds, start.fetches_first read nonempty, fun high => ?_⟩
  exact ⟨start.fetchByte_of_high read high, start.step_of_high read high⟩

def loadedAt (address : UInt32) (size : UInt64) : Arguments where
  program := "image"
  memorySize := size
  loadAddress := address
  steps := 1
  strictOpcodes := false
  dumpRegisters := false
  dumpMemory := none
  dumpLength := 16
  json := false

/-- Right past the 16-bit addresses an image is loaded, but `ip` is zero and not there. -/
theorem image_past_registers_is_not_started : ¬ ∀ (args : Arguments) (policy : OpcodePolicy)
    (files : Files) (image : List UInt8) (c : Machine Memory), files args.program = .ok image →
      image ≠ [] → setUp args policy files = .ok c → StartsAtImage args image c := by
  intro always
  let args := loadedAt 0x10000 0x10010
  let files : Files := fun _ => .ok [0x17, 0xAB, 0xCD]
  have read : files args.program = .ok [0x17, 0xAB, 0xCD] := rfl
  obtain ⟨c, start⟩ : ∃ c, Starts args .permissive files c :=
    exists_starts read (by decide) (by decide) (by decide)
  have told := always args .permissive files _ c read (by decide) (setUp_of_starts start)
  have cut := start.toNat_ip
  rw [told.ip] at cut
  exact absurd cut (by decide)

/-- The last address that `ip` can hold, in the largest memory whose top word `sp` can point to. -/
theorem image_at_last_address_starts :
    let args := loadedAt 0xFFFF 0x10001
    let files : Files := fun _ => .ok [0x17, 0xAB]
    ∃ c, files args.program = .ok [0x17, 0xAB] ∧ setUp args .strict files = .ok c ∧
      StartsAtImage args [0x17, 0xAB] c ∧ (c.reg .sp).toNat = 0xFFFF := by
  intro args files
  have read : files args.program = .ok [0x17, 0xAB] := rfl
  obtain ⟨c, start⟩ : ∃ c, Starts args .strict files c :=
    exists_starts read (by decide) (by decide) (by decide)
  have ready : setUp args .strict files = .ok c := setUp_of_starts start
  obtain ⟨atImage, -, top, -⟩ := starts_at_image_iff read (by decide) ready
  exact ⟨c, read, ready, atImage.mpr ⟨by decide, by decide⟩, top⟩

end Command

end FrameMachine
