import RegisterMachine.CommandLine
import RegisterMachine.Program.Listing

/-!
# The factorial of five

An example program, and a tour of it: the program is assembled, listed and run to
its end, with all messages shown. It has no budget, as it does come to an end
(`ends_ofSource`).
-/

namespace RegisterMachine.Factorial

/-- The source text of the program. It multiplies `R1` by the numbers from `R0`
    down to two. -/
def source : String :=
  "; Computes 5! and prints it\n" ++
  "    MOV R0, 5\n" ++
  "    MOV R1, 1\n" ++
  "FACT:\n" ++
  "    CMP R0, 1\n" ++
  "    JZ END\n" ++
  "    MOL R1, R0\n" ++
  "    DEC R0\n" ++
  "    JMP FACT\n" ++
  "END:\n" ++
  "    OUT R1\n" ++
  "    HLT\n"

/-- The texts written by a program, each in quotes. -/
def outputText (output : Array String) : String :=
  "[" ++ ", ".intercalate (output.toList.map fun text => "\"" ++ text ++ "\"") ++ "]"

/-- What is shown of a program that comes to an end, and of its run. -/
def tour (program : Program) (h : Machine.initial.Ends program) : Report :=
  let final := Machine.initial.finish program h
  let shown := (program.listingLines.map Shown.printed).toArray ++ Report.ofLog final.log
  match final.outcome with
  | .done =>
    let output := s!"Program terminated. Output: {outputText final.machine.output}"
    ⟨shown.push (.printed output), []⟩
  | .fault fault => ⟨shown, [fault.message]⟩
  | .defect defect => ⟨shown, [defect.message]⟩

/-- The program assembles, and halts within 26 steps with the factorial as its output. -/
theorem run_ofSource :
    ((Assembly.ofSource source).result.toOption.map fun program =>
      let run := Machine.initial.run program 26
      (run.stop, run.machine.output)) = some (.halted, #["120"]) := by
  decide +kernel

theorem ends_ofSource {program : Program}
    (h : (Assembly.ofSource source).result = .ok program) : Machine.initial.Ends program := by
  have hrun := run_ofSource
  rw [h] at hrun
  have hstop : (Machine.initial.run program 26).stop = .halted :=
    congrArg Prod.fst (Option.some.inj hrun)
  exact Machine.ends_of_runFrom fun hlate => nomatch hstop.symm.trans hlate

/-- The tour of the program. -/
def report : Report :=
  let assembly := Assembly.ofSource source
  let shown := Report.ofLog assembly.log
  match h : assembly.result with
  | .error error => ⟨shown, [error.message]⟩
  | .ok program =>
    let tour := tour program (ends_ofSource h)
    { tour with shown := shown ++ tour.shown }

end RegisterMachine.Factorial
