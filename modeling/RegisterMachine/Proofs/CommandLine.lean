import Mathlib.Data.List.Basic
import RegisterMachine.CommandLine
import RegisterMachine.Proofs.Budget
import RegisterMachine.Proofs.Dump

/-!
# The command on a program

The command runs a program within a budget of steps. What it answers is told here from
the arguments, the text of the file, and the steps that the machine makes when it is left
to itself (`report_of_assemble`).

The budget is a decimal number of 64 bits (`Options.IsBudget`). It stands behind the path
of the file, or is left at the default (`Options.Positional`); the flag that asks for the
memory is not counted.

* `Numeral.bounded_eq_ok_iff`: which texts are counters;
* `Options.ofArguments_eq_ok_iff`: which arguments make sense;
* `Fault.message_injective`, `Fault.message_ne_outOfBudget`: the reason of a failure tells
  what has failed;
* `CommandLine.reportOn_eq`: the report as a whole, told from the run.
-/

namespace RegisterMachine

/-! ## Counters -/

namespace Numeral

variable {bound value n : Nat}

theorem le_ofDigitChars (value : Nat) (digits : List Char) :
    value ≤ Nat.ofDigitChars 10 digits value := by
  induction digits generalizing value with
  | nil => exact Nat.le_refl value
  | cons c digits ih =>
    rw [Nat.ofDigitChars_cons]
    exact Nat.le_trans (by omega) (ih _)

theorem appendDigit_eq_ok_iff {c : Char} : appendDigit bound value c = .ok n ↔
    c.isDigit ∧ 10 * value + (c.toNat - '0'.toNat) = n ∧ n ≤ bound := by
  rw [appendDigit]
  cases c.isDigit with
  | false => simp
  | true =>
    by_cases hle : 10 * value + (c.toNat - '0'.toNat) ≤ bound
    · simp only [Bool.not_true, Bool.false_eq_true, if_false, if_pos hle, Except.ok.injEq]
      exact ⟨fun h => ⟨trivial, h, h ▸ hle⟩, fun h => h.2.1⟩
    · simp only [Bool.not_true, Bool.false_eq_true, if_false, if_neg hle]
      exact iff_of_false (fun h => nomatch h) fun h => hle (h.2.1 ▸ h.2.2)

/-- The digits in front of others make a smaller number, so the bound is exceeded on the way
    only if it is exceeded at the end. -/
theorem foldlM_appendDigit_eq_ok_iff {digits : List Char} (hvalue : value ≤ bound) :
    digits.foldlM (appendDigit bound) value = .ok n ↔
      digits.all Char.isDigit ∧ Nat.ofDigitChars 10 digits value = n ∧ n ≤ bound := by
  induction digits generalizing value with
  | nil =>
    constructor
    · rintro ⟨⟩
      exact ⟨rfl, rfl, hvalue⟩
    · rintro ⟨-, rfl, -⟩
      rfl
  | cons c digits ih =>
    simp only [List.foldlM_cons, bind_eq_ok_iff, appendDigit_eq_ok_iff, List.all_cons,
      Bool.and_eq_true, Nat.ofDigitChars_cons]
    constructor
    · rintro ⟨next, ⟨hdigit, rfl, hnext⟩, hrest⟩
      obtain ⟨hall, hn⟩ := (ih hnext).1 hrest
      exact ⟨⟨hdigit, hall⟩, hn⟩
    · rintro ⟨⟨hdigit, hall⟩, rfl, hn⟩
      -- No digit takes the number beyond the bound, for it does not get smaller again.
      have hnext := (le_ofDigitChars _ digits).trans hn
      exact ⟨_, ⟨hdigit, rfl, hnext⟩, (ih hnext).2 ⟨hall, rfl, hn⟩⟩

/-- The counters are the runs of digits within the bound, with or without a plus sign. -/
theorem bounded_eq_ok_iff {text : List Char} : bounded bound text = .ok n ↔
    n ≤ bound ∧ ∃ digits, digits? digits = some n ∧ (text = digits ∨ text = '+' :: digits) := by
  have hread {digits : List Char} (hne : digits ≠ []) :
      digits.foldlM (appendDigit bound) 0 = .ok n ↔ n ≤ bound ∧ digits? digits = some n := by
    rw [foldlM_appendDigit_eq_ok_iff (Nat.zero_le _), digits?_eq_some_iff, and_iff_right hne,
      ← and_assoc, and_comm]
  cases text with
  | nil => simp [bounded]
  | cons c rest =>
    by_cases hplus : c = '+'
    · obtain rfl := hplus
      -- A plus sign is no digit, so it is the one in front.
      have hnone : digits? ('+' :: rest) = none := by simp [digits?]
      have hiff : (∃ digits, digits? digits = some n ∧
          ('+' :: rest = digits ∨ '+' :: rest = '+' :: digits)) ↔ digits? rest = some n := by
        refine ⟨?_, fun h => ⟨_, h, .inr rfl⟩⟩
        rintro ⟨digits, hdigits, rfl | hcons⟩
        · cases hnone.symm.trans hdigits
        · exact (List.cons.inj hcons).2 ▸ hdigits
      rw [hiff]
      cases rest with
      | nil =>
        constructor
        · rintro ⟨⟩
        · rintro ⟨-, ⟨⟩⟩
      | cons c rest =>
        rw [bounded, hread (List.cons_ne_nil c rest)]
        exact List.cons_ne_nil c rest
    · rw [bounded, hread (List.cons_ne_nil c rest)]
      · refine and_congr_right' ⟨fun h => ⟨_, h, .inl rfl⟩, ?_⟩
        rintro ⟨digits, hdigits, rfl | hcons⟩
        · exact hdigits
        · exact absurd (List.cons.inj hcons).1 hplus
      all_goals simp [hplus]

end Numeral

/-! ## Arguments -/

namespace Options

/-- A text for a budget: a number of 64 bits in decimal, with or without a plus sign. -/
def IsBudget (text : String) (budget : Nat) : Prop :=
  budget ≤ greatestBudget ∧ ∃ digits, Numeral.digits? digits = some budget ∧
    (text.toList = digits ∨ text.toList = '+' :: digits)

/-- Arguments that name a file, and give a budget or leave it at the default. -/
inductive Positional (path : String) : List String → Nat → Prop
  | byDefault : Positional path [path] 10000
  | given {text : String} {budget : Nat} (h : IsBudget text budget) (rest : List String) :
    Positional path (path :: text :: rest) budget

/-- What the arguments ask for, the flag apart, is what they ask for without the flag. -/
theorem ofArguments_eq_ok_iff {arguments : List String} {options : Options} :
    ofArguments arguments = .ok options ↔
      Positional options.path (arguments.filter (· != dumpFlag)) options.budget ∧
        options.dump = arguments.contains dumpFlag := by
  obtain ⟨path, budget, dump⟩ := options
  rw [ofArguments]
  split
  · next hpositional =>
    rw [hpositional]
    exact iff_of_false (fun h => nomatch h) fun h => nomatch h.1
  · next found hpositional =>
    rw [hpositional]
    constructor
    · rintro ⟨⟩
      exact ⟨.byDefault, rfl⟩
    · rintro ⟨⟨⟩, rfl⟩
      rfl
  · next found text rest hpositional =>
    rw [hpositional]
    constructor
    · intro h
      split at h
      · next hbudget =>
        cases h
        exact ⟨.given (Numeral.bounded_eq_ok_iff.1 hbudget) rest, rfl⟩
      · cases h
    · rintro ⟨hgiven, rfl⟩
      cases hgiven with
      | given hbudget => rw [Numeral.bounded_eq_ok_iff.2 hbudget]

end Options

/-! ## The texts of failures -/

theorem FaultKind.message_injective {kind other : FaultKind} (h : kind.message = other.message) :
    kind = other := by
  cases kind <;> cases other <;> first | rfl | simp [message] at h

theorem FaultKind.paren_notMem_message (kind : FaultKind) : '(' ∉ kind.message.toList := by
  cases kind <;> decide

theorem FaultKind.head?_message_ne (kind : FaultKind) (rest : List Char) :
    (kind.message.toList ++ rest).head? ≠ some 'n' := by
  cases kind <;> simp [message]

/-- The text of a fault on a line is cut in two by its first bracket. -/
theorem Fault.toList_message_some (kind : FaultKind) (line : Nat) :
    (Fault.mk kind (some line)).message.toList = (kind.message.toList ++ [' ']) ++ '(' ::
      ("line ".toList ++ (Nat.toDigits 10 line ++ [')'])) := by
  change (kind.message ++ " (line " ++ Nat.repr line ++ ")").toList = _
  simp [Nat.toList_repr]

/-- Each fault has its own text. -/
theorem Fault.message_injective {fault other : Fault} (h : fault.message = other.message) :
    fault = other := by
  have hne (kind kind' : FaultKind) (line : Nat) :
      (Fault.mk kind (some line)).message ≠ (Fault.mk kind' none).message := by
    intro h
    refine kind'.paren_notMem_message ?_
    rw [show kind'.message = _ from h.symm, toList_message_some]
    simp
  obtain ⟨kind, _ | line⟩ := fault <;> obtain ⟨kind', _ | line'⟩ := other
  · obtain rfl := FaultKind.message_injective h
    rfl
  · cases hne kind' kind line' h.symm
  · cases hne kind kind' line h
  · -- Neither the text of the kind nor the number has a bracket, so the texts agree piece by piece.
    have hlists := congrArg String.toList h
    have hfront (kind : FaultKind) : '(' ∉ kind.message.toList ++ [' '] := by
      simpa using kind.paren_notMem_message
    have hdigits (n : Nat) : '(' ∉ "line ".toList ++ (Nat.toDigits 10 n ++ [')']) := by
      have : '(' ∉ Nat.toDigits 10 n := fun hmem =>
        nomatch Nat.isDigit_of_mem_toDigits (by decide) (by decide) hmem
      simpa using this
    rw [toList_message_some, toList_message_some,
      List.append_cons_inj_of_notMem (hfront kind) (hdigits line)] at hlists
    obtain ⟨hkind, -, hline⟩ := hlists
    obtain rfl : kind = kind' :=
      FaultKind.message_injective (String.toList_injective (List.append_cancel_right hkind))
    have hread := congrArg Numeral.digits?
      (List.append_cancel_right (List.append_cancel_left hline))
    rw [Numeral.digits?_toDigits, Numeral.digits?_toDigits] at hread
    obtain rfl := Option.some.inj hread
    rfl

theorem Fault.message_ne_outOfBudget (fault : Fault) (budget : Nat) :
    fault.message ≠ s!"no HLT after {budget} steps, giving up" := by
  intro h
  -- The text of no kind of fault begins with this letter.
  have hhead : fault.message.toList.head? = some 'n' := by
    rw [h]
    change ("no HLT after " ++ Nat.repr budget ++ " steps, giving up").toList.head? = _
    simp
  obtain ⟨kind, _ | line⟩ := fault
  · exact kind.head?_message_ne [] ((List.append_nil _).symm ▸ hhead)
  · rw [toList_message_some, List.append_assoc] at hhead
    exact kind.head?_message_ne _ hhead

/-! ## Reports -/

theorem Options.failure?_eq_none_iff {options : Options} {stop : Stop} :
    options.failure? stop = none ↔ stop = .halted := by
  cases stop with
  | halted => exact iff_of_true rfl rfl
  | outOfBudget | fault | defect => exact iff_of_false (fun h => nomatch h) (fun h => nomatch h)

/-- The reason of a failure tells the fault that is behind it, if there is one. -/
theorem Options.failure?_eq_message_iff {options : Options} {stop : Stop} {fault : Fault}
    (hne : ∀ defect, stop ≠ .defect defect) :
    options.failure? stop = some fault.message ↔ stop = .fault fault := by
  constructor
  · intro h
    cases stop with
    | halted => cases h
    | outOfBudget => exact absurd (Option.some.inj h).symm (fault.message_ne_outOfBudget _)
    | fault => exact congrArg Stop.fault (Fault.message_injective (Option.some.inj h))
    | defect defect => exact absurd rfl (hne defect)
  · rintro rfl
    rfl

/-- What was read is the text that is written with these bytes. -/
theorem FileContents.text_toUTF8 (source : String) :
    FileContents.text (.ok source.toUTF8) = .ok source := by
  have hread : String.fromUTF8? source.toUTF8 = some source := by
    rw [String.fromUTF8?, String.toUTF8_eq_toByteArray, dif_pos source.isValidUTF8]
    rfl
  simp only [text, ok_bind, hread]

namespace CommandLine

/-- The report on the arguments, if these are the files. -/
def reportOn (files : String → FileContents) (arguments : List String) : Report :=
  report (m := Id) files arguments

/-- What is shown in front of a run: what there is to say about the text of the program, and the
    number of its instructions. -/
def loadLog (path source : String) (program : Program) : Log :=
  (Assembly.ofSource source).log.withoutDebug.push
    ⟨.info, s!"Loaded {program.instructions.size} instructions from {path}"⟩

/-- What is shown of a machine that has halted: its output, and its registers. -/
def haltLog (machine : Machine) (steps : Nat) : Log :=
  (machine.output.map fun text => ⟨.info, s!"OUT {text}"⟩).push
    ⟨.info, s!"Program halted after {steps} steps. Registers: {Options.registersText machine}"⟩

section

variable {files : String → FileContents} {arguments : List String} {path source : String}
  {budget : Nat} {program : Program}
  (harguments : Options.Positional path (arguments.filter (· != Options.dumpFlag)) budget)
  (hfile : (files path).text = .ok source) (hprogram : assemble source = .ok program)

include harguments hfile hprogram

theorem reportOn_eq :
    let run := Machine.initial.run program budget
    let dump := arguments.contains Options.dumpFlag
    reportOn files arguments =
      match Options.failure? ⟨path, budget, dump⟩ run.stop with
      | some reason => ⟨Report.ofLog (loadLog path source program), [reason]⟩
      | none => ⟨Report.ofLog (loadLog path source program ++ haltLog run.machine run.steps ++
          if dump then run.machine.memory.messages else #[]), []⟩ := by
  intro run dump
  have hoptions : Options.ofArguments arguments = .ok ⟨path, budget, dump⟩ :=
    Options.ofArguments_eq_ok_iff.2 ⟨harguments, rfl⟩
  have hload : loadFrom path (files path) = (.ok program, (Assembly.ofSource source).log) := by
    have hresult : (Assembly.ofSource source).result = .ok program := hprogram
    simp only [loadFrom, hfile, hresult]
    rfl
  have hreport : reportOn files arguments =
      Options.report ⟨path, budget, dump⟩ (files path) := by
    rw [reportOn, report, hoptions]
    rfl
  rw [hreport, Options.report, hload]
  simp only [Options.reportOn, loadLog]
  cases Options.failure? ⟨path, budget, dump⟩ run.stop with
  | some reason => simp [Report.ofLog]
  | none => simp [Report.ofLog, Options.finalLog, haltLog, Memory.dump_eq_messages, run]

theorem reasons_eq : (reportOn files arguments).reasons =
    (Options.failure? ⟨path, budget, false⟩ (Machine.initial.run program budget).stop).toList := by
  rw [reportOn_eq harguments hfile hprogram]
  cases (Machine.initial.run program budget).stop <;> rfl

theorem reasons_eq_nil_iff : (reportOn files arguments).reasons = [] ↔
    ∃ n ≤ budget, Machine.initial.StopsAfter program n .halted := by
  rw [reasons_eq harguments hfile hprogram, Option.toList_eq_nil_iff,
    Options.failure?_eq_none_iff, Machine.run_stop_eq_halted_iff]

theorem reasons_eq_message_iff (fault : Fault) :
    (reportOn files arguments).reasons = [fault.message] ↔
      ∃ n < budget, Machine.initial.StopsAfter program n (.fault fault) := by
  have hdefect (defect : Defect) : (Machine.initial.run program budget).stop ≠ .defect defect :=
    Machine.run_stop_ne_defect (by decide) budget defect
  rw [reasons_eq harguments hfile hprogram, Option.toList_eq_singleton_iff,
    Options.failure?_eq_message_iff hdefect, Machine.run_stop_eq_fault_iff]

/-- The command fails for want of budget if and only if the run neither halts nor fails in time. -/
theorem reasons_eq_outOfBudget_iff :
    (reportOn files arguments).reasons = [s!"no HLT after {budget} steps, giving up"] ↔
      (¬ ∃ n ≤ budget, Machine.initial.StopsAfter program n .halted) ∧
        ¬ ∃ n < budget, ∃ fault, Machine.initial.StopsAfter program n (.fault fault) := by
  constructor
  · intro hlate
    constructor
    · intro hhalts
      rw [(reasons_eq_nil_iff harguments hfile hprogram).2 hhalts] at hlate
      cases hlate
    · rintro ⟨n, hn, fault, hstops⟩
      rw [(reasons_eq_message_iff harguments hfile hprogram fault).2 ⟨n, hn, hstops⟩] at hlate
      exact fault.message_ne_outOfBudget budget (List.singleton_inj.1 hlate)
  · rintro ⟨hhalts, hfaults⟩
    rw [reasons_eq harguments hfile hprogram]
    cases hstop : (Machine.initial.run program budget).stop with
    | halted => exact absurd (Machine.run_stop_eq_halted_iff.1 hstop) hhalts
    | outOfBudget => rfl
    | fault fault =>
      obtain ⟨n, hn, hstops⟩ := Machine.run_stop_eq_fault_iff.1 hstop
      exact absurd ⟨n, hn, fault, hstops⟩ hfaults
    | defect defect => exact absurd hstop (Machine.run_stop_ne_defect (by decide) budget defect)

theorem reportOn_of_halted {n : Nat} (hn : n ≤ budget)
    (hstops : Machine.initial.StopsAfter program n .halted) :
    let machine := Machine.initial.after program n
    reportOn files arguments = ⟨Report.ofLog (loadLog path source program ++ haltLog machine n ++
      if Options.dumpFlag ∈ arguments then machine.memory.messages else #[]), []⟩ := by
  obtain ⟨log, hrun⟩ := hstops.run_eq (Stop.inTime_halted_iff.2 hn)
  rw [reportOn_eq harguments hfile hprogram, hrun]
  simp only [List.contains_iff_mem]
  rfl

theorem shown_of_failed (h : (reportOn files arguments).reasons ≠ []) :
    (reportOn files arguments).shown = Report.ofLog (loadLog path source program) := by
  rw [reportOn_eq harguments hfile hprogram] at h ⊢
  split at h
  · rfl
  · exact absurd rfl h

/-- Of the flag, it counts whether it is there, and only for what is shown. -/
theorem reportOn_congr {others : List String}
    (hothers : others.filter (· != Options.dumpFlag) = arguments.filter (· != Options.dumpFlag)) :
    (reportOn files others).reasons = (reportOn files arguments).reasons ∧
      ((Options.dumpFlag ∈ others ↔ Options.dumpFlag ∈ arguments) →
        reportOn files others = reportOn files arguments) := by
  have hothers' := hothers.symm ▸ harguments
  constructor
  · rw [reasons_eq hothers' hfile hprogram, reasons_eq harguments hfile hprogram]
  · intro hflag
    have hdump : others.contains Options.dumpFlag = arguments.contains Options.dumpFlag :=
      Bool.eq_iff_iff.2 (by rwa [List.contains_iff_mem, List.contains_iff_mem])
    rw [reportOn_eq hothers' hfile hprogram, reportOn_eq harguments hfile hprogram, hdump]

/-- Without the flag, the same is shown but for the memory. -/
theorem shown_filter_of_halted {n : Nat} (hn : n ≤ budget)
    (hstops : Machine.initial.StopsAfter program n .halted) :
    let machine := Machine.initial.after program n
    (reportOn files (arguments.filter (· != Options.dumpFlag))).shown =
      Report.ofLog (loadLog path source program ++ haltLog machine n) := by
  have hfilter : (arguments.filter (· != Options.dumpFlag)).filter (· != Options.dumpFlag) =
      arguments.filter (· != Options.dumpFlag) := by
    rw [List.filter_filter]
    simp only [Bool.and_self]
  have hnone : Options.dumpFlag ∉ arguments.filter (· != Options.dumpFlag) := by simp
  intro machine
  rw [reportOn_of_halted (hfilter.symm ▸ harguments) hfile hprogram hn hstops, if_neg hnone,
    Array.append_empty]

end

/-- A program that stores a word, prints it, and halts. -/
def storeAndPrint : String := "MOV R1, -7\nMOV [16], R1\nOUT [16]\nHLT"

end CommandLine

end RegisterMachine
