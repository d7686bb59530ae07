import FrameMachine.Proofs.Machine.Session
import FrameMachine.Proofs.Snapshot.Objects
import FrameMachine.Register

/-!
# Snapshots there and back

A snapshot that has been written as JSON text is read back from it, wherever the text has blanks
between its parts. Applied to a register file it leaves nothing of what was in it, so a machine that
is restored goes on as the captured one did, as far as their stores and policies are alike.
-/
namespace FrameMachine.Snapshot

open Json

variable {s : Snapshot} {f : Field} {fs : List Field} {gap between : List Char}

/-- A member from behind the quote that opens its name. -/
def memberText (s : Snapshot) (gap : List Char) (f : Field) : List Char :=
  f.name.toList ++ '"' :: ':' :: (gap ++ Nat.toDigits 10 (s.field f).toNat)

def membersText (s : Snapshot) (gap between : List Char) : List Field → List Char
  | [] => []
  | [f] => s.memberText gap f
  | f :: g :: fs => s.memberText gap f ++ ',' :: (between ++ '"' :: s.membersText gap between (g :: fs))

theorem derives_membersText {before closing : List Char} (beforeBlank : AllBlank before)
    (gapBlank : AllBlank gap) (betweenBlank : AllBlank between) (closingBlank : AllBlank closing)
    (s : Snapshot) (f : Field) (fs : List Field) :
    Derives (.members ((f :: fs).map fun f => f.member (s.field f)))
      (before ++ '"' :: (s.membersText gap between (f :: fs) ++ closing)) := by
  induction fs generalizing f before with
  | nil =>
    have last := f.derives_member (s.field f) ⟨beforeBlank, gapBlank, closingBlank⟩
    simp only [membersText, memberText, List.append_assoc, List.cons_append]
    exact .lastMember last
  | cons g fs ih =>
    have first := f.derives_member (s.field f) ⟨beforeBlank, gapBlank, allBlank_nil⟩
    have row := Derives.nextMember first (ih betweenBlank g)
    simp only [List.append_nil, List.append_assoc, List.cons_append] at row
    simp only [membersText, memberText, List.append_assoc, List.cons_append]
    exact row

structure Layout where
  opening : List Char
  gap : List Char
  between : List Char
  closing : List Char
  blank : AllBlank opening ∧ AllBlank gap ∧ AllBlank between ∧ AllBlank closing

def Layout.text (layout : Layout) (s : Snapshot) : List Char :=
  '{' :: (layout.opening ++ '"' ::
    (s.membersText layout.gap layout.between Field.all ++ (layout.closing ++ ['}'])))

theorem Layout.isObject_text (layout : Layout) (s : Snapshot) :
    IsObject (Field.all.map fun f => f.member (s.field f)) (layout.text s) := by
  obtain ⟨opening, gap, between, closing, blank₁, blank₂, blank₃, blank₄⟩ := layout
  have row : Derives (.members (Field.all.map fun f => f.member (s.field f)))
      (opening ++ '"' :: (s.membersText gap between Field.all ++ closing)) :=
    derives_membersText blank₁ blank₂ blank₃ blank₄ s _ _
  refine ⟨[], _, [], ⟨allBlank_nil, allBlank_nil⟩, .members row, ?_⟩
  simp only [Layout.text, List.nil_append, List.append_nil, List.append_assoc, List.cons_append]

theorem gives_members (s : Snapshot) : Gives (Field.all.map fun f => f.member (s.field f)) s :=
  ⟨fun r => by cases r <;> rfl, .inl rfl⟩

theorem parse_of_layout {text : String} (layout : Layout) (written : text.toList = layout.text s) :
    parse text = .ok s := by
  have object := layout.isObject_text s
  rw [← written] at object
  have readable : ∀ m ∈ Field.all.map fun f => f.member (s.field f), Readable m := by
    intro m hm
    obtain ⟨f, -, rfl⟩ := List.mem_map.mp hm
    exact f.readable_member _
  exact (parse_eq_ok_iff object readable).mpr (gives_members s)

theorem toList_member {colon : String} (hcolon : colon.toList = ':' :: gap) (s : Snapshot)
    (f : Field) : (s.member colon f).toList = '"' :: s.memberText gap f := by
  have quote : ("\"" : String).toList = ['"'] := rfl
  simp only [member, memberText, Numeral.decimal, String.toList_append, String.toList_ofList, quote,
    hcolon, List.cons_append, List.nil_append, List.append_assoc]

theorem toList_members {colon comma : String} (hcolon : colon.toList = ':' :: gap)
    (hcomma : comma.toList = ',' :: between) (s : Snapshot) (f : Field) (fs : List Field) :
    (comma.intercalate ((f :: fs).map (s.member colon))).toList =
      '"' :: s.membersText gap between (f :: fs) := by
  rw [String.toList_intercalate]
  induction fs generalizing f with
  | nil => exact (List.intercalate_singleton).trans (toList_member hcolon s f)
  | cons g fs ih =>
    rw [List.map_cons, List.map_cons, List.map_cons, List.map_cons, List.intercalate_cons_cons,
      ← List.map_cons, ← List.map_cons, ih g, toList_member hcolon, hcomma, membersText]
    simp only [List.cons_append, List.append_assoc]

theorem parse_compact (s : Snapshot) : parse s.compact = .ok s := by
  let layout : Layout := ⟨[], [], [], [], by decide⟩
  refine parse_of_layout layout ?_
  have members : (",".intercalate (Field.all.map (s.member ":"))).toList =
      '"' :: s.membersText [] [] Field.all := toList_members rfl rfl s _ _
  rw [compact, String.toList_append, String.toList_append, members]
  rfl

theorem parse_pretty (s : Snapshot) : parse s.pretty = .ok s := by
  let layout : Layout := ⟨['\n', ' ', ' '], [' '], ['\n', ' ', ' '], ['\n'], by decide⟩
  refine parse_of_layout layout ?_
  have members : (",\n  ".intercalate (Field.all.map (s.member ": "))).toList =
      '"' :: s.membersText [' '] ['\n', ' ', ' '] Field.all := toList_members rfl rfl s _ _
  rw [pretty, String.toList_append, String.toList_append, members]
  rfl

end FrameMachine.Snapshot

namespace FrameMachine

namespace Snapshot

variable {s t : Snapshot}

theorem ext_of_get (h : ∀ r, s.get r = t.get r) (words : s.frameWords = t.frameWords) : s = t := by
  obtain ⟨⟩ := s
  obtain ⟨⟩ := t
  simp only [mk.injEq]
  exact ⟨h .ip, h .acc, h .r1, h .r2, h .r3, h .r4, h .r5, h .r6, h .r7, h .r8, h .sp, h .fp, words⟩

@[simp] theorem get_capture (f : RegisterFile) (words : UInt16) (r : Register) :
    (capture f words).get r = f.get r := by
  cases r <;> rfl

@[simp] theorem frameWords_capture (f : RegisterFile) (words : UInt16) :
    (capture f words).frameWords = words := rfl

@[simp] theorem get_apply (s : Snapshot) (f : RegisterFile) (r : Register) :
    (s.apply f).get r = s.get r := by
  rw [apply, RegisterFile.get_foldl_set, if_pos r.mem_all]

theorem apply_capture (f g : RegisterFile) (words : UInt16) : (capture f words).apply g = f := by
  apply RegisterFile.ext_of_get
  intro r
  rw [get_apply, get_capture]

theorem capture_apply (s : Snapshot) (f : RegisterFile) : capture (s.apply f) s.frameWords = s := by
  apply ext_of_get
  · intro r
    rw [get_capture, get_apply]
  · exact frameWords_capture _ _

end Snapshot

namespace Machine

variable {σ τ : Type} {a : Machine σ} {b : Machine τ}

theorem restore_snapshot (a : Machine σ) (b : Machine τ) :
    b.restore a.snapshot = { b with registers := a.registers, frameWords := a.frameWords } := by
  rw [restore, snapshot, Snapshot.apply_capture, Snapshot.frameWords_capture]

/-- Stores and policies are all that a snapshot does not carry over. -/
theorem machines_restore {C : Coupling σ τ} (stores : C.stores a.store b.store)
    (policies : C.policies a.policy b.policy) : C.Machines a (b.restore a.snapshot) := by
  rw [restore_snapshot]
  exact ⟨rfl, stores, rfl, policies⟩

variable [Store σ] [Store τ]

/-- A snapshot is read back from both forms of its text, and a machine that is restored from it
takes over all registers and the count, and nothing else. Where the stores and the policies are
alike as well, every run of it is one of the captured machine. What is applied to a register file
is captured from it again. -/
theorem snapshot_moves_state (a : Machine σ) :
    Snapshot.parse a.snapshot.compact = .ok a.snapshot ∧
    Snapshot.parse a.snapshot.pretty = .ok a.snapshot ∧
    (∀ b : Machine τ,
      let restored := b.restore a.snapshot
      restored.registers.bytes = a.registers.bytes ∧ restored.frameWords = a.frameWords ∧
        restored.store = b.store ∧ restored.policy = b.policy) ∧
    (∀ b : Machine σ, b.store = a.store → b.policy = a.policy →
      ∀ n, run n (b.restore a.snapshot) = run n a) ∧
    (∀ (C : Coupling σ τ) (b : Machine τ), C.Transparent → C.stores a.store b.store →
      C.policies a.policy b.policy → ∀ n,
        let captured := run n a
        let restored := run n (b.restore a.snapshot)
        captured.events = restored.events ∧ captured.result = restored.result ∧
          C.Machines captured.machine restored.machine) ∧
    ∀ (s : Snapshot) (f : RegisterFile), Snapshot.capture (s.apply f) s.frameWords = s := by
  refine ⟨Snapshot.parse_compact _, Snapshot.parse_pretty _, fun b => ?_, fun b store policy n => ?_,
    fun C b alike stores policies n => ?_, Snapshot.capture_apply⟩
  · rw [restore_snapshot]
    exact ⟨rfl, rfl, rfl, rfl⟩
  · have same : b.restore a.snapshot = a := by
      rw [restore_snapshot, store, policy]
    rw [same]
  · exact Coupling.run_alike alike.step n (machines_restore stores policies)

/-- A machine that is about to push a register, beside a machine over its store and one that has
the store on loan. -/
theorem restored_machines_push_too :
    let memory : Memory := ⟨#[0x18, 0x02, 0, 0, 0, 0]⟩
    let a : Machine (Loan Memory) := ⟨(RegisterFile.initial 6).set .r1 0xABCD, ⟨memory⟩, 3, .strict⟩
    let b : Machine Memory := initial memory .strict
    let c : Machine (Loan Memory) := initial ⟨memory⟩ .strict
    let C : Coupling (Loan Memory) Memory := lending
    (c.store = a.store ∧ c.policy = a.policy ∧ run 1 (c.restore a.snapshot) = run 1 a) ∧
      C.Transparent ∧ C.stores a.store b.store ∧ C.policies a.policy b.policy ∧
      (run 1 (b.restore a.snapshot)).result = .ok 1 ∧
      (run 1 (b.restore a.snapshot)).machine.store.HasWord 4 0xABCD := by
  intro memory a b c C
  obtain ⟨-, -, -, same, alike, -⟩ := snapshot_moves_state (τ := Memory) a
  obtain ⟨-, result, machines⟩ := alike C b lending_transparent rfl rfl 1
  have ran : (run 1 a).result = .ok 1 := by decide +kernel
  have pushed : (run 1 a).machine.store.lent.HasWord 4 0xABCD := by
    unfold Memory.HasWord
    decide +kernel
  have lent : (run 1 a).machine.store.lent = (run 1 (b.restore a.snapshot)).machine.store :=
    machines.store
  exact ⟨⟨rfl, rfl, same c rfl rfl 1⟩, lending_transparent, rfl, rfl, result ▸ ran, lent ▸ pushed⟩

end Machine

end FrameMachine
