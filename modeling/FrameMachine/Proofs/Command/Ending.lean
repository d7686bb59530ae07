import FrameMachine.Command.Run
import FrameMachine.Proofs.Machine.Footprint
import FrameMachine.Proofs.Store.Rendering

/-!
# How the command ends

The command beside the library: its own loop of steps takes the steps of a run, and the whole of it
ends in exactly one of seven ways, of which one is a success and one a crash for want of a memory of
the size. What is printed depends on nothing but that, and notices of single steps are no part of it.
-/
namespace FrameMachine.Command

open Machine (after run)

variable {args : Arguments} {policy : OpcodePolicy} {files : Files} {env : Environment}
  {m c left : Machine Memory} {n k : Nat} {fault : FrameMachine.Fault}

theorem stepOn_of_all_succeed (o : Observer) (index : Nat) (notices : Array Notice)
    (h : ∀ k < n, (after k m).Succeeds) :
    ∃ told, stepOn o index notices n m = ⟨told, none, after n m⟩ := by
  induction n generalizing index notices m with
  | zero => exact ⟨notices, rfl⟩
  | succ n ih =>
    obtain ⟨event, m', ok⟩ : m.Succeeds := h 0 (Nat.succ_pos n)
    rw [after, Machine.stepped_of_ok ok]
    simp only [stepOn, ok]
    exact ih _ _ (Machine.all_succeed_next h ok)

theorem stepOn_of_faultsAt (o : Observer) (index : Nat) (notices : Array Notice) (hk : k < n)
    (first : m.FaultsAt k fault left) : ∃ told, stepOn o index notices n m =
      ⟨told, some (.step (index + k) left.registers fault), left⟩ := by
  induction n generalizing index notices m k with
  | zero => exact absurd hk (Nat.not_lt_zero k)
  | succ n ih =>
    cases k with
    | zero =>
      have stop : Machine.step m = .error fault left := first.here
      simp only [stepOn, stop]
      exact ⟨_, rfl⟩
    | succ k =>
      obtain ⟨event, m', ok⟩ : m.Succeeds := first.before 0 (Nat.succ_pos k)
      simp only [stepOn, ok]
      obtain ⟨told, stop⟩ := ih (index + 1) _ (Nat.lt_of_succ_lt_succ hk) (first.next ok)
      rw [Nat.succ_add_eq_add_succ] at stop
      exact ⟨told, stop⟩

/-- The machine that the command runs: the image lies in a memory of zeros and `ip` is cut to its
address. -/
def Starts (args : Arguments) (policy : OpcodePolicy) (files : Files) (c : Machine Memory) : Prop :=
  ∃ image memory, files args.program = .ok image ∧ 2 ≤ args.memorySize.toNat ∧
    args.memorySize.toNat ≤ Memory.maxSize ∧
    (Memory.zero args.memorySize.toNat).load args.loadAddress image = .ok memory ∧
    c = (Machine.initial memory policy).setReg .ip args.loadAddress.toUInt16

theorem memorySize_lt_two_iff : args.memorySize < 2 ↔ args.memorySize.toNat < 2 :=
  UInt64.lt_iff_toNat_lt

theorem not_memorySize_lt_two (large : 2 ≤ args.memorySize.toNat) : ¬ args.memorySize < 2 :=
  fun small => Nat.not_lt_of_le large (memorySize_lt_two_iff.mp small)

theorem setUp_of_starts (start : Starts args policy files c) : setUp args policy files = .ok c := by
  obtain ⟨image, memory, read, large, possible, fits, rfl⟩ := start
  simp only [setUp, read, if_neg (not_memorySize_lt_two large), Memory.allocate?_of_le possible, fits]

theorem starts_of_setUp (ready : setUp args policy files = .ok c) : Starts args policy files c := by
  unfold setUp at ready
  split at ready
  · cases ready
  next image read =>
    split at ready
    · cases ready
    next small =>
      have large : 2 ≤ args.memorySize.toNat := Nat.le_of_not_lt (small ∘ memorySize_lt_two_iff.mpr)
      by_cases possible : args.memorySize.toNat ≤ Memory.maxSize
      · rw [Memory.allocate?_of_le possible] at ready
        dsimp only at ready
        split at ready
        · cases ready
        next memory fits =>
          obtain rfl := Except.ok.inj ready
          exact ⟨image, memory, read, large, possible, fits, rfl⟩
      · rw [Memory.allocate?_of_lt (Nat.lt_of_not_le possible)] at ready
        cases ready

theorem exists_starts {image : List UInt8} (read : files args.program = .ok image)
    (large : 2 ≤ args.memorySize.toNat) (possible : args.memorySize.toNat ≤ Memory.maxSize)
    (room : args.loadAddress.toNat + image.length ≤ args.memorySize.toNat) :
    ∃ c, Starts args policy files c := by
  have fits : args.loadAddress.toNat + image.length ≤ (Memory.zero args.memorySize.toNat).size := by
    rw [Memory.size_zero]
    exact room
  exact ⟨_, image, _, read, large, possible, (Memory.load_eq _ _ _).trans (if_pos fits), rfl⟩

theorem Starts.size (start : Starts args policy files c) :
    c.store.size = args.memorySize.toNat := by
  obtain ⟨image, memory, -, -, -, fits, rfl⟩ := start
  change memory.size = _
  rw [Memory.load_eq] at fits
  split at fits
  · obtain rfl := Except.ok.inj fits
    exact (Memory.size_place _ _ _).trans (Memory.size_zero _)
  · cases fits

def registerLines (args : Arguments) (m : Machine Memory) : List String :=
  if args.dumpRegisters then [m.registers.dump] else []

def snapshotLines (args : Arguments) (m : Machine Memory) : List String :=
  if args.json then [m.snapshot.pretty] else []

/-- The lines of the window, of which there are none if it is not asked for. -/
def WindowLines (args : Arguments) (m : Machine Memory) (lines : List String) : Prop :=
  match args.dumpMemory with
  | none => lines = []
  | some addr => ∃ text, Store.window m.store addr args.dumpLength.toNat = .ok text ∧ lines = [text]

/-- What is printed and what is reported as the failure, told by the library alone. -/
inductive Ends (args : Arguments) (policy : OpcodePolicy) (files : Files) :
    List String → Option Failure → Prop
  | unreadable {fault : ReadFault} : files args.program = .error fault →
      Ends args policy files [] (some (.unreadable args.program fault))
  | memoryTooSmall {image : List UInt8} : files args.program = .ok image →
      args.memorySize.toNat < 2 →
      Ends args policy files [] (some (.memoryTooSmall args.memorySize.toNat))
  | capacityOverflow {image : List UInt8} : files args.program = .ok image →
      Memory.maxSize < args.memorySize.toNat →
      Ends args policy files [] (some .capacityOverflow)
  | programTooLarge {image : List UInt8} {fault : FrameMachine.Fault} :
      files args.program = .ok image → 2 ≤ args.memorySize.toNat →
      args.memorySize.toNat ≤ Memory.maxSize →
      (Memory.zero args.memorySize.toNat).load args.loadAddress image = .error fault →
      Ends args policy files [] (some (.programTooLarge fault))
  | step {c left : Machine Memory} {k : Nat} {fault : FrameMachine.Fault} :
      Starts args policy files c → k < args.steps.toNat → c.FaultsAt k fault left →
      Ends args policy files [] (some (.step k left.registers fault))
  | window {c : Machine Memory} {addr : UInt32} {fault : FrameMachine.Fault} :
      Starts args policy files c → (run args.steps.toNat c).fault = none →
      args.dumpMemory = some addr →
      Store.window (run args.steps.toNat c).machine.store addr args.dumpLength.toNat =
        .error fault →
      Ends args policy files (registerLines args (run args.steps.toNat c).machine)
        (some (.window fault))
  | success {c : Machine Memory} {window : List String} :
      Starts args policy files c → (run args.steps.toNat c).fault = none →
      WindowLines args (run args.steps.toNat c).machine window →
      Ends args policy files (registerLines args (run args.steps.toNat c).machine ++ window ++
        snapshotLines args (run args.steps.toNat c).machine) none

theorem execute_of_setUp_error {threshold : Log.Threshold} {failure : Failure}
    (valid : env.threshold = .ok threshold)
    (h : setUp args (policyOf args env) files = .error failure) :
    (execute args env files).output = [] ∧ (execute args env files).failure = some failure := by
  have whole : execute args env files = .failed failure := by simp only [execute, valid, h]
  rw [whole]
  exact ⟨rfl, rfl⟩

theorem execute_of_faultsAt {threshold : Log.Threshold} (valid : env.threshold = .ok threshold)
    (start : Starts args (policyOf args env) files c) (hk : k < args.steps.toNat)
    (first : c.FaultsAt k fault left) :
    (execute args env files).output = [] ∧
      (execute args env files).failure = some (.step k left.registers fault) := by
  obtain ⟨told, stop⟩ := stepOn_of_faultsAt ⟨Environment.isOn env.trace, threshold⟩ 0 #[] hk first
  rw [Nat.zero_add] at stop
  have whole : execute args env files = ⟨[], told, some (.step k left.registers fault)⟩ := by
    simp only [execute, valid, setUp_of_starts start, stop]
  rw [whole]
  exact ⟨rfl, rfl⟩

theorem execute_of_ran {threshold : Log.Threshold} (valid : env.threshold = .ok threshold)
    (start : Starts args (policyOf args env) files c)
    (ran : (run args.steps.toNat c).fault = none) :
    (execute args env files).output = (report args (run args.steps.toNat c).machine).1 ∧
      (execute args env files).failure = (report args (run args.steps.toNat c).machine).2 := by
  obtain ⟨told, stop⟩ := stepOn_of_all_succeed ⟨Environment.isOn env.trace, threshold⟩ 0 #[]
    (Machine.run_fault_eq_none_iff.mp ran)
  rw [← Machine.run_machine ran] at stop
  have whole : execute args env files =
      ⟨(report args (run args.steps.toNat c).machine).1, told,
        (report args (run args.steps.toNat c).machine).2⟩ := by
    simp only [execute, valid, setUp_of_starts start, stop]
  rw [whole]
  exact ⟨rfl, rfl⟩

theorem report_of_windowLines {window : List String} (shown : WindowLines args m window) :
    report args m = (registerLines args m ++ window ++ snapshotLines args m, none) := by
  unfold WindowLines at shown
  unfold report registerLines snapshotLines
  cases asked : args.dumpMemory with
  | none =>
    rw [asked] at shown
    subst shown
    simp only [List.append_nil]
  | some addr =>
    rw [asked] at shown
    obtain ⟨text, read, rfl⟩ := shown
    simp only [read, List.append_assoc, List.singleton_append]

theorem report_of_outside {addr : UInt32} (asked : args.dumpMemory = some addr)
    (outside : Store.window m.store addr args.dumpLength.toNat = .error fault) :
    report args m = (registerLines args m, some (.window fault)) := by
  simp only [report, registerLines, asked, outside]

theorem Ends.execute {lines : List String} {failure : Option Failure} {threshold : Log.Threshold}
    (h : Ends args (policyOf args env) files lines failure)
    (valid : env.threshold = .ok threshold) :
    (execute args env files).output = lines ∧ (execute args env files).failure = failure := by
  cases h with
  | unreadable absent =>
    apply execute_of_setUp_error valid
    simp only [setUp, absent]
  | memoryTooSmall read small =>
    apply execute_of_setUp_error valid
    simp only [setUp, read, if_pos (memorySize_lt_two_iff.mpr small)]
  | capacityOverflow read impossible =>
    apply execute_of_setUp_error valid
    have large : 2 ≤ args.memorySize.toNat := Nat.le_trans (by decide) (Nat.le_of_lt impossible)
    simp only [setUp, read, if_neg (not_memorySize_lt_two large), Memory.allocate?_of_lt impossible]
  | programTooLarge read large possible refused =>
    apply execute_of_setUp_error valid
    simp only [setUp, read, if_neg (not_memorySize_lt_two large), Memory.allocate?_of_le possible,
      refused]
  | step start hk first => exact execute_of_faultsAt valid start hk first
  | window start ran asked outside =>
    have := execute_of_ran valid start ran
    rwa [report_of_outside asked outside] at this
  | success start ran shown =>
    have := execute_of_ran valid start ran
    rwa [report_of_windowLines shown] at this

end FrameMachine.Command
