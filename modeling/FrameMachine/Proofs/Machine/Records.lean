import FrameMachine.Proofs.Machine.AllOrNothing
import FrameMachine.Proofs.Machine.Faults

/-!
# What the records tell

A step tells of at most one event. Each call that succeeds, each return that succeeds and each
byte that is skipped is told of, in step order and with the values that the step has made, and
nothing else is: this holds on stores of any kind, and of rows of steps that go on after faults.
-/
namespace FrameMachine

namespace Event

def record (event : Event) : Log.Level × String := (event.level, event.message)

theorem message_called (fp marker ret : UInt16) : (called fp marker ret).message =
    "call frame fp=0x" ++ Numeral.upperHex 4 fp.toNat ++ " marker=" ++ toString marker.toNat ++
      " ret=0x" ++ Numeral.upperHex 4 ret.toNat := by
  have hfp : "call frame fp=0x" = "call frame fp=" ++ "0x" := by decide
  have hret : " ret=0x" = " ret=" ++ "0x" := by decide
  change "call frame fp=" ++ ("0x" ++ Numeral.upperHex 4 fp.toNat) ++ " marker=" ++
    toString marker.toNat ++ " ret=" ++ ("0x" ++ Numeral.upperHex 4 ret.toNat) = _
  rw [hfp, hret]
  simp only [String.append_assoc]

theorem message_returned (target args fp : UInt16) : (returned target args fp).message =
    "return to 0x" ++ Numeral.upperHex 4 target.toNat ++ " args=" ++ toString args.toNat ++
      " fp=0x" ++ Numeral.upperHex 4 fp.toNat := by
  have htarget : "return to 0x" = "return to " ++ "0x" := by decide
  have hfp : " fp=0x" = " fp=" ++ "0x" := by decide
  change "return to " ++ ("0x" ++ Numeral.upperHex 4 target.toNat) ++ " args=" ++
    toString args.toNat ++ " fp=" ++ ("0x" ++ Numeral.upperHex 4 fp.toNat) = _
  rw [htarget, hfp]
  simp only [String.append_assoc]

end Event

namespace Machine

variable {σ : Type} [Store σ] {m mid m' : Machine σ} {op : Opcode} {i : Instruction} {r : Register}
  {event : Event} {byte : UInt8} {v : UInt16} {n k : Nat}

structure Stacked (m : Machine σ) (n : Nat) (m' : Machine σ) : Prop where
  frameWords : m'.frameWords = m.frameWords + UInt16.ofNat n
  kept : ∀ r, r ≠ .sp → m'.reg r = m.reg r

omit [Store σ] in
theorem Stacked.trans (h : Stacked m n mid) (h' : Stacked mid k m') : Stacked m (n + k) m' := by
  refine ⟨?_, fun r hr => (h'.kept r hr).trans (h.kept r hr)⟩
  rw [h'.frameWords, h.frameWords, UInt16.ofNat_add, UInt16.add_assoc]

theorem stacked_of_push {u : Unit} (h : push v m = .ok u m') : Stacked m 1 m' := by
  rw [push, getReg_bind] at h
  obtain ⟨_, mid, hwrite, h⟩ := bind_eq_ok_iff.mp h
  rw [writeWord, onStore] at hwrite
  cases hw : Store.writeWord (m.reg .sp).toUInt32 v m.store with
  | error fault store =>
    simp only [hw] at hwrite
    cases hwrite
  | ok done store =>
    simp only [hw] at hwrite
    cases hwrite
    cases h
    exact ⟨rfl, fun r hr => RegisterFile.get_set_of_ne _ _ hr.symm⟩

theorem stacked_of_pushRegisters {rs : List Register} {u : Unit}
    (h : pushRegisters rs m = .ok u m') : Stacked m rs.length m' := by
  induction rs generalizing m with
  | nil =>
    cases h
    exact ⟨(UInt16.add_zero _).symm, fun _ _ => rfl⟩
  | cons r rs ih =>
    rw [pushRegisters, getReg_bind] at h
    obtain ⟨_, mid, hpush, h⟩ := bind_eq_ok_iff.mp h
    have stacked := (stacked_of_push hpush).trans (ih h)
    rwa [Nat.add_comm] at stacked

theorem pushState_tells (h : pushState m = .ok event m') :
    event = .called (m'.reg .fp) (m.frameWords + 11) (m.reg .ip) := by
  rw [pushState] at h
  obtain ⟨_, saved, hsaved, h⟩ := bind_eq_ok_iff.mp h
  rw [getReg_bind] at h
  obtain ⟨_, returning, hret, h⟩ := bind_eq_ok_iff.mp h
  rw [look_bind] at h
  obtain ⟨_, marked, hmarker, h⟩ := bind_eq_ok_iff.mp h
  have first := stacked_of_pushRegisters hsaved
  have ip : saved.reg .ip = m.reg .ip := first.kept .ip (by decide)
  have words : returning.frameWords = m.frameWords + UInt16.ofNat 9 :=
    (first.trans (stacked_of_push hret)).frameWords
  have marker : returning.frameWords + 2 = m.frameWords + 11 := by
    rw [words, UInt16.add_assoc]
    rfl
  rw [getReg_bind, putReg_bind, setFrameWords_bind, pure_apply, ip, marker] at h
  obtain ⟨rfl, rfl⟩ := EStateM.Result.ok.inj h
  exact congrArg (Event.called · _ _) reg_setReg_self.symm

theorem call_tells {target : UInt16} (h : call target m = .ok event m') :
    event = .called (m'.reg .fp) (m.frameWords + 11) (m.reg .ip) := by
  obtain ⟨told, mid, hstate, h⟩ := bind_eq_ok_iff.mp h
  rw [putReg_bind, pure_apply] at h
  obtain ⟨rfl, rfl⟩ := EStateM.Result.ok.inj h
  rw [reg_setReg_of_ne (by decide)]
  exact pushState_tells hstate

theorem apply_call_tells {told : Option Event} (calls : i.opcode = .calLit ∨ i.opcode = .calReg)
    (h : apply i m = .ok told m') :
    told = some (.called (m'.reg .fp) (m.frameWords + 11) (m.reg .ip)) := by
  cases i with
  | calLit target =>
    obtain ⟨event, mid, hcall, h⟩ := bind_eq_ok_iff.mp h
    cases h
    rw [call_tells hcall]
  | calReg src =>
    obtain ⟨target, mid, hslot, hrest⟩ := bind_eq_ok_iff.mp h
    obtain ⟨-, rfl⟩ := attempt_eq_ok hslot
    obtain ⟨event, last, hcall, hrest⟩ := bind_eq_ok_iff.mp hrest
    cases hrest
    rw [call_tells hcall]
  | movLitReg | movRegReg | movRegMem | movMemReg | addRegReg | jmpNotEq | pshLit | pshReg
  | popReg | ret => rcases calls with other | other <;> cases other

structure Unstacked (m : Machine σ) (rs : List Register) (n : Nat) (m' : Machine σ) : Prop where
  store : m'.store = m.store
  sp : m'.reg .sp = m.reg .sp + 2 * UInt16.ofNat n
  kept : ∀ r, r ≠ .sp → r ∉ rs → m'.reg r = m.reg r

omit [Store σ] in
theorem Unstacked.trans {rs ss : List Register} (h : Unstacked m rs n mid)
    (h' : Unstacked mid ss k m') : Unstacked m (rs ++ ss) (n + k) m' := by
  refine ⟨h'.store.trans h.store, ?_, fun r hr hmem => ?_⟩
  · rw [h'.sp, h.sp, UInt16.ofNat_add]
    grind
  · rw [List.mem_append, not_or] at hmem
    exact (h'.kept r hr hmem.2).trans (h.kept r hr hmem.1)

omit [Store σ] in
theorem unstacked_refl : Unstacked m [] 0 m := ⟨rfl, by simp, fun _ _ _ => rfl⟩

omit [Store σ] in
theorem unstacked_setFrameWords : Unstacked m [] 0 { m with frameWords := v } :=
  ⟨rfl, by simp, fun _ _ _ => rfl⟩

omit [Store σ] in
theorem unstacked_setReg (hr : r ≠ .sp) : Unstacked m [r] 0 (m.setReg r v) := by
  refine ⟨rfl, ?_, fun s _ hmem => ?_⟩
  · rw [reg_setReg_of_ne hr]
    simp
  · exact reg_setReg_of_ne fun same => hmem (List.mem_singleton.mpr same.symm)

theorem pop_goes_through (h : pop m = .ok v m') :
    Store.readWord m.store ((m.reg .sp).toUInt32 + 2) = .ok v ∧ Unstacked m [] 1 m' := by
  rw [pop, getReg_bind] at h
  obtain ⟨_, mid, hread, h⟩ := bind_eq_ok_iff.mp h
  obtain ⟨read, rfl⟩ := attempt_eq_ok hread
  rw [putReg_bind, look_bind, setFrameWords_bind, pure_apply] at h
  obtain ⟨rfl, rfl⟩ := EStateM.Result.ok.inj h
  refine ⟨read, rfl, ?_, fun r hr _ => reg_setReg_of_ne hr.symm⟩
  rw [reg_mk, get_registers, reg_setReg_self]
  simp

theorem unstacked_of_popRegisters {rs : List Register} {u : Unit} (hsp : .sp ∉ rs)
    (h : popRegisters rs m = .ok u m') : Unstacked m rs rs.length m' := by
  induction rs generalizing m with
  | nil =>
    cases h
    exact unstacked_refl
  | cons r rs ih =>
    rw [List.mem_cons, not_or] at hsp
    obtain ⟨v, mid, hpop, h⟩ := bind_eq_ok_iff.mp h
    rw [putReg_bind] at h
    have popped := (pop_goes_through hpop).2.trans (unstacked_setReg (v := v) (Ne.symm hsp.1))
    have unstacked := popped.trans (ih hsp.2 h)
    rwa [Nat.add_comm] at unstacked

theorem unstacked_of_discard {u : Unit} (h : discard n m = .ok u m') : Unstacked m [] n m' := by
  induction n generalizing m with
  | zero =>
    cases h
    exact unstacked_refl
  | succ n ih =>
    obtain ⟨v, mid, hpop, h⟩ := bind_eq_ok_iff.mp h
    have unstacked := (pop_goes_through hpop).2.trans (ih h)
    rwa [Nat.add_comm] at unstacked

/-- The count of arguments lies above ten words: the marker, the return address and the saved
registers. -/
theorem popState_tells (h : popState m = .ok event m') :
    ∃ args, Store.readWord m.store ((m.reg .fp + 20).toUInt32 + 2) = .ok args ∧
      event = .returned (m'.reg .ip) args (m'.reg .fp) := by
  rw [popState, getReg_bind, putReg_bind] at h
  obtain ⟨marker, marked, hmarker, h⟩ := bind_eq_ok_iff.mp h
  rw [setFrameWords_bind] at h
  obtain ⟨ret, returning, hret, h⟩ := bind_eq_ok_iff.mp h
  rw [putReg_bind] at h
  obtain ⟨_, restored, hrestored, h⟩ := bind_eq_ok_iff.mp h
  obtain ⟨args, counted, hargs, h⟩ := bind_eq_ok_iff.mp h
  obtain ⟨_, last, hdiscard, h⟩ := bind_eq_ok_iff.mp h
  rw [putReg_bind, pure_apply] at h
  obtain ⟨rfl, rfl⟩ := EStateM.Result.ok.inj h
  have hback := unstacked_of_popRegisters (by decide) hrestored
  have before := (pop_goes_through hmarker).2.trans
    (unstacked_setFrameWords (v := marker) |>.trans (pop_goes_through hret).2)
  have above := before.trans ((unstacked_setReg (v := ret) (r := .ip) (by decide)).trans hback)
  obtain ⟨count, hpopped⟩ := pop_goes_through hargs
  have rest := hpopped.trans (unstacked_of_discard hdiscard)
  refine ⟨args, ?_, ?_⟩
  · have hsp : restored.reg .sp = m.reg .fp + 20 := by
      rw [above.sp, reg_setReg_self]
      rfl
    rwa [above.store, hsp] at count
  · have hip : last.reg .ip = ret := by
      rw [rest.kept .ip (by decide) (by decide), hback.kept .ip (by decide) (by decide),
        reg_setReg_self]
    rw [reg_setReg_self, reg_setReg_of_ne (by decide), hip]

def Quiet (x : Action σ (Option Event)) : Prop := ∀ m told m', x m = .ok told m' → told = none

omit [Store σ] in
theorem quiet_none : Quiet (pure none : Action σ (Option Event)) := by
  intro m told m' h
  cases h
  rfl

omit [Store σ] in
theorem Quiet.after {α : Type} {x : Action σ α} {f : α → Action σ (Option Event)}
    (hf : ∀ a, Quiet (f a)) : Quiet (x >>= f) := by
  intro m told m' h
  obtain ⟨a, mid, -, h⟩ := bind_eq_ok_iff.mp h
  exact hf a mid told m' h

theorem quiet_apply (plain : i.opcode ∉ Opcode.framing) :
    Quiet (apply i : Action σ (Option Event)) := by
  cases i with
  | movLitReg | pshLit => exact .after fun _ => quiet_none
  | movRegReg | movRegMem | movMemReg | pshReg | popReg =>
    exact .after fun _ => .after fun _ => quiet_none
  | addRegReg => exact .after fun _ => .after fun _ => .after fun _ => quiet_none
  | jmpNotEq value target =>
    refine .after fun acc => ?_
    by_cases differ : value ≠ acc
    · simp only [if_pos differ]
      exact .after fun _ => quiet_none
    · simp only [if_neg differ]
      exact quiet_none
  | calLit target => exact absurd (show Opcode.calLit ∈ Opcode.framing by decide) plain
  | calReg src => exact absurd (show Opcode.calReg ∈ Opcode.framing by decide) plain
  | ret => exact absurd (show Opcode.ret ∈ Opcode.framing by decide) plain

/-- The byte at `ip` is that of the opcode. -/
def Meets (m : Machine σ) (op : Opcode) : Prop :=
  Store.readByte m.store (m.reg .ip).toUInt32 = .ok op.byte

/-- What is to be told of the next step of a machine, if anything. -/
inductive Account (m : Machine σ) : Option Event → Prop where
  | call {op : Opcode} (calls : op = .calLit ∨ op = .calReg) (here : m.Meets op)
      (succeeds : m.Succeeds) :
      Account m (some (.called (m.stepped.reg .fp) (m.frameWords + 11)
        (m.reg .ip + UInt16.ofNat op.encodedLength)))
  -- the count is the eleventh word above `fp`, and like all pops this one does not wrap
  | ret {args : UInt16} (here : m.Meets .ret) (succeeds : m.Succeeds)
      (count : Store.readWord m.store ((m.reg .fp + 20).toUInt32 + 2) = .ok args) :
      Account m (some (.returned (m.stepped.reg .ip) args (m.stepped.reg .fp)))
  | skip {byte : UInt8} (unknown : m.MeetsUnknown byte) (permissive : m.policy = .permissive) :
      Account m (some (.ignored byte (m.reg .ip)))
  | plain {op : Opcode} (here : m.Meets op) (other : op ∉ Opcode.framing) : Account m none
  | failed (fails : ¬ m.Succeeds) : Account m none

theorem told_of_failed (fails : ¬ m.Succeeds) : m.told = none := by
  cases hstep : step m with
  | ok event m' => exact absurd ⟨event, m', hstep⟩ fails
  | error fault left => rw [told, hstep]

theorem step_eq_ok {event : Option Event} (here : m.Meets op) (h : step m = .ok event m') :
    ∃ i, i.opcode = op ∧ apply i (m.advanced op.encodedLength) = .ok event m' := by
  rw [step_of_opcode here (Opcode.ofByte?_byte op)] at h
  obtain ⟨i, mid, hdecode, happly⟩ := bind_eq_ok_iff.mp h
  obtain rfl := decode_advance hdecode
  exact ⟨i, (decode_eq_ok hdecode).1, happly⟩

theorem told_of_call (calls : op = .calLit ∨ op = .calReg) (here : m.Meets op)
    (succeeds : m.Succeeds) : m.told = some (.called (m.stepped.reg .fp) (m.frameWords + 11)
      (m.reg .ip + UInt16.ofNat op.encodedLength)) := by
  obtain ⟨event, m', hstep⟩ := succeeds
  obtain ⟨i, rfl, happly⟩ := step_eq_ok here hstep
  rw [told_of_ok hstep, stepped_of_ok hstep, apply_call_tells calls happly, reg_ip_advanced,
    frameWords_advanced]

theorem told_of_ret (here : m.Meets .ret) (succeeds : m.Succeeds) :
    ∃ args, Store.readWord m.store ((m.reg .fp + 20).toUInt32 + 2) = .ok args ∧
      m.told = some (.returned (m.stepped.reg .ip) args (m.stepped.reg .fp)) := by
  obtain ⟨event, m', hstep⟩ := succeeds
  obtain ⟨i, hop, happly⟩ := step_eq_ok here hstep
  obtain rfl : i = .ret := by
    cases i <;> cases hop
    rfl
  obtain ⟨record, mid, hstate, h⟩ := bind_eq_ok_iff.mp happly
  cases h
  obtain ⟨args, count, rfl⟩ := popState_tells hstate
  rw [store_advanced, reg_advanced_of_ne (by decide)] at count
  exact ⟨args, count, by rw [told_of_ok hstep, stepped_of_ok hstep]⟩

theorem told_of_plain (here : m.Meets op) (other : op ∉ Opcode.framing) : m.told = none := by
  by_cases succeeds : m.Succeeds
  · obtain ⟨event, m', hstep⟩ := succeeds
    obtain ⟨i, rfl, happly⟩ := step_eq_ok here hstep
    rw [told_of_ok hstep]
    exact quiet_apply other _ _ _ happly
  · exact told_of_failed succeeds

theorem told_of_skip (unknown : m.MeetsUnknown byte) (permissive : m.policy = .permissive) :
    m.told = some (.ignored byte (m.reg .ip)) := by
  have hstep := (step_of_unknown unknown.1 unknown.2).trans meetUnknown_advanced
  rw [permissive] at hstep
  exact told_of_ok hstep

theorem account_told (m : Machine σ) : m.Account m.told := by
  by_cases succeeds : m.Succeeds
  · cases hread : Store.readByte m.store (m.reg .ip).toUInt32 with
    | error fault => exact absurd succeeds (not_succeeds_of_error (step_of_unread hread))
    | ok byte =>
      cases known : Opcode.ofByte? byte with
      | none =>
        cases hpolicy : m.policy with
        | permissive =>
          rw [told_of_skip ⟨hread, known⟩ hpolicy]
          exact .skip ⟨hread, known⟩ hpolicy
        | strict =>
          have hstep := (step_of_unknown hread known).trans meetUnknown_advanced
          rw [hpolicy] at hstep
          exact absurd succeeds (not_succeeds_of_error hstep)
      | some op =>
        obtain rfl := Opcode.byte_of_ofByte? known
        by_cases calls : op = .calLit ∨ op = .calReg
        · rw [told_of_call calls hread succeeds]
          exact .call calls hread succeeds
        · by_cases returns : op = .ret
          · subst returns
            obtain ⟨args, count, htold⟩ := told_of_ret hread succeeds
            rw [htold]
            exact .ret hread succeeds count
          · have other : op ∉ Opcode.framing := by
              simp only [Opcode.framing, List.mem_cons, List.not_mem_nil, or_false]
              rintro (h | h | h)
              · exact calls (Or.inl h)
              · exact calls (Or.inr h)
              · exact returns h
            rw [told_of_plain hread other]
            exact .plain hread other
  · rw [told_of_failed succeeds]
    exact .failed succeeds

/-- A step tells what is to be told of it, and nothing else. -/
theorem told_eq_iff {event : Option Event} : m.told = event ↔ m.Account event := by
  constructor
  · rintro rfl
    exact account_told m
  · intro account
    cases account with
    | call calls here succeeds => exact told_of_call calls here succeeds
    | ret here succeeds count =>
      obtain ⟨args, found, htold⟩ := told_of_ret here succeeds
      cases found.symm.trans count
      exact htold
    | skip unknown permissive => exact told_of_skip unknown permissive
    | plain here other => exact told_of_plain here other
    | failed fails => exact told_of_failed fails

theorem emitted_eq_filterMap (n : Nat) (m : Machine σ) :
    emitted n m = (List.range n).filterMap fun k => (after k m).told := by
  induction n generalizing m with
  | zero => rfl
  | succ n ih =>
    rw [emitted, ih, List.range_succ_eq_map, List.filterMap_cons, List.filterMap_map]
    cases h : m.told with
    | none => simp [Function.comp_def, after, h]
    | some event => simp [Function.comp_def, after, h]

theorem mem_emitted {event : Event} (h : event ∈ emitted n m) :
    ∃ k, (after k m).Account (some event) := by
  rw [emitted_eq_filterMap] at h
  obtain ⟨k, -, told⟩ := List.mem_filterMap.mp h
  exact ⟨k, told_eq_iff.mp told⟩

def steady (policy : OpcodePolicy) : Coupling σ σ where
  stores s t := s = t
  policies p q := p = policy ∧ q = policy
  faults _ := True

theorem policy_stepped (m : Machine σ) : m.stepped.policy = m.policy := by
  have start : (steady m.policy).Machines m m := ⟨rfl, rfl, rfl, rfl, rfl⟩
  have hstep : (steady m.policy).Actions (step (σ := σ)) step :=
    Coupling.actions_step (Coupling.bytes_of_eq rfl fun _ => trivial)
      (Coupling.words_of_eq rfl fun _ => trivial) (fun _ _ h => h.1.trans h.2.symm) fun _ => trivial
  rcases hstep m m start with ⟨event, left, right, hm, -, alike⟩ | ⟨fault, left, right, hm, -, -, alike⟩
  · rw [stepped_of_ok hm]
    exact alike.policy.1
  · rw [stepped_of_error hm]
    exact alike.policy.1

theorem policy_after (n : Nat) (m : Machine σ) : (after n m).policy = m.policy :=
  after_induction (P := fun now => now.policy = m.policy)
    (fun now h => (policy_stepped now).trans h) rfl n

theorem level_of_strict {event : Event} (strict : m.policy = .strict) (h : event ∈ emitted n m) :
    event.level = .trace := by
  obtain ⟨k, account⟩ := mem_emitted h
  cases account with
  | call | ret => rfl
  | skip unknown permissive =>
    rw [policy_after, strict] at permissive
    cases permissive

/-- The events of any row of steps are those of its steps, in their order. Each step is accounted
for: successful calls and returns and skipped bytes are told of with their values, nothing else is.
A run that ends with a fault tells what the steps before the first that fails tell, any other run
what all its steps tell. -/
theorem records_tell_what_happened (m : Machine σ) (n : Nat) :
    emitted n m = (List.range n).filterMap (fun k => (after k m).told) ∧
    (∀ k event, (after k m).told = event ↔ (after k m).Account event) ∧
    (∀ k, ¬ (after k m).Succeeds → (after k m).told = none) ∧
    (m.policy = .strict → ∀ record ∈ (emitted n m).map Event.record, record.1 ≠ .debug) ∧
    ((∀ k < n, (after k m).Succeeds) ∧ run n m = ⟨(emitted n m).toArray, .ok n, after n m⟩ ∨
      ∃ k < n, ∃ fault left, m.FaultsAt k fault left ∧
        run n m = ⟨(emitted k m).toArray, .error fault, left⟩) ∧
    (∀ fp marker ret, (Event.called fp marker ret).record = (.trace,
      "call frame fp=0x" ++ Numeral.upperHex 4 fp.toNat ++ " marker=" ++ toString marker.toNat ++
        " ret=0x" ++ Numeral.upperHex 4 ret.toNat)) ∧
    (∀ target args fp, (Event.returned target args fp).record = (.trace,
      "return to 0x" ++ Numeral.upperHex 4 target.toNat ++ " args=" ++ toString args.toNat ++
        " fp=0x" ++ Numeral.upperHex 4 fp.toNat)) ∧
    ∀ byte addr, (Event.ignored byte addr).record = (.debug,
      "ignoring unknown opcode 0x" ++ Numeral.upperHex 2 byte.toNat ++ " at 0x" ++
        Numeral.upperHex 4 addr.toNat) := by
  refine ⟨emitted_eq_filterMap n m, fun k event => told_eq_iff, fun k => told_of_failed, ?_,
    run_cases n m, ?_, ?_, ?_⟩
  · intro strict record hrecord
    obtain ⟨event, hmem, rfl⟩ := List.mem_map.mp hrecord
    rw [Event.record, level_of_strict strict hmem]
    exact nofun
  · intro fp marker ret
    rw [Event.record, Event.message_called]
    rfl
  · intro target args fp
    rw [Event.record, Event.message_returned]
    rfl
  · intro byte addr
    rw [Event.record, Event.message_ignored]
    rfl

def callAndReturn (policy : OpcodePolicy) : Machine Memory :=
  .initial ⟨#[0x17, 0, 0, 0x5A, 0, 0x08, 0, 0, 0x5C] ++ Array.replicate 55 0⟩ policy

theorem call_and_return_are_told :
    emitted 4 (callAndReturn .strict) = [.called 40 12 6, .returned 6 0 52] ∧
    emitted 4 (callAndReturn .permissive) = [.called 40 12 6, .returned 6 0 52, .ignored 0 6] ∧
    (callAndReturn .strict).policy = .strict ∧
    (∀ record ∈ (emitted 4 (callAndReturn .strict)).map Event.record, record.1 ≠ .debug) ∧
    ¬ (after 3 (callAndReturn .strict)).Succeeds ∧
    (after 3 (callAndReturn .strict)).told = none := by
  have strict : (callAndReturn .strict).policy = .strict := rfl
  have fails : ¬ (after 3 (callAndReturn .strict)).Succeeds := by
    have unknown : (after 3 (callAndReturn .strict)).MeetsUnknown 0 :=
      ⟨by decide +kernel, by decide⟩
    have hstep := step_of_unknown unknown.1 unknown.2
    rw [meetUnknown_advanced, policy_after, strict] at hstep
    exact not_succeeds_of_error hstep
  obtain ⟨-, -, failed, no_debug, -⟩ := records_tell_what_happened (callAndReturn .strict) 4
  exact ⟨by decide +kernel, by decide +kernel, strict, no_debug strict, fails, failed 3 fails⟩

end Machine

end FrameMachine
