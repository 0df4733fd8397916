import Keybench.Lib.ShellWords
import Keybench.Libc.Chars

/-!
# The command of the plotter

After a run `run_plotter` hands a command to the shell that holds the path of the plot script and
the report directory between single quotes.  The shell reads the command as the five words that
are meant exactly when neither path holds a single quote (`plotCommand_iff`).
-/

namespace Keybench

/-- The path of the plot script next to the binary, before it is cut to its buffer: `strrchr`
finds the last slash of `argv[0]`. -/
def plotText (argv0 : Bytes) : Bytes :=
  let slash := argv0.rdropWhile (fun c => c ≠ chr '/')
  if slash ≠ [] then slash.dropLast ++ ascii "/scripts/plot.py" else ascii "scripts/plot.py"

/-- `plotpath`. -/
def plotPath (argv0 : Bytes) : Bytes := snprintfStr 700 (plotText argv0)

/-- The command with the two paths, before it is cut to its buffer. -/
def commandText (plot dir : Bytes) : Bytes :=
  ascii "python3 '" ++ plot ++ ascii "' '" ++ dir ++ ascii "' --out '" ++ dir
    ++ ascii "/figures'"

/-- `cmd`. -/
def plotCommand (argv0 dir : Bytes) : Bytes := snprintfStr 2048 (commandText (plotPath argv0) dir)

/-- `run_plotter`: what it prints on `stderr`, when `system` gives the status of a command. -/
def runPlotter (system : Bytes → ℤ) (argv0 dir : Bytes) : List Bytes :=
  let rc := system (plotCommand argv0 dir)
  (ascii "keybench: plotting into " ++ dir ++ ascii "/figures\n")
    :: if rc ≠ 0 then
        [ascii "keybench: plot step failed, is python3 with matplotlib installed?\n"]
      else []

/-- The characters of the POSIX shell. -/
def shellChars : Shell.Chars UInt8 where
  quote := 39
  dquote := 34
  escape := 92
  newline := 10
  comment := chr '#'
  blank c := c = 32 || c = 9
  operator c := (ascii ";&|<>()").contains c
  expansion c := c = chr '$' || c = 96
  quote_ne_escape := by decide

/-- The words that the command stands for. -/
def plotPieces (plot dir : Bytes) : List (Shell.Piece UInt8) :=
  [.bare (ascii "python3"), .quoted plot, .quoted dir, .bare (ascii "--out"),
    .quoted (dir ++ ascii "/figures")]

/-- The command is made of these words. -/
theorem commandText_eq (plot dir : Bytes) :
  commandText plot dir = Shell.command shellChars 32 (plotPieces plot dir)
  := by
  have hpython : ascii "python3 '" = ascii "python3" ++ [32, 39] := by decide
  have hdir : ascii "' '" = [39, 32, 39] := by decide
  have hout : ascii "' --out '" = [39, 32] ++ ascii "--out" ++ [32, 39] := by decide
  have hend : ascii "/figures'" = ascii "/figures" ++ [39] := by decide
  rw [commandText, hpython, hdir, hout, hend]
  simp [Shell.command, plotPieces, Shell.Piece.text, shellChars]

/-- The bare words are plain. -/
theorem plotPieces_sound (plot dir : Bytes) :
  ∀ p ∈ plotPieces plot dir, p.Sound shellChars
  := by
  have hpython : ascii "python3" ≠ [] ∧ ∀ c ∈ ascii "python3", Shell.Ordinary shellChars c := by
    decide +kernel
  have hout : ascii "--out" ≠ [] ∧ ∀ c ∈ ascii "--out", Shell.Ordinary shellChars c := by
    decide +kernel
  intro p hp
  simp only [plotPieces, List.mem_cons, List.not_mem_nil, or_false] at hp
  rcases hp with rfl | rfl | rfl | rfl | rfl
  · exact hpython
  · trivial
  · trivial
  · exact hout
  · trivial

/-- The shell reads the command as the words that are meant exactly when the path of the script
and the directory hold no single quote. -/
theorem plotCommand_iff {argv0 dir : Bytes} (hplot : (plotText argv0).length < 700)
    (hcommand : (commandText (plotText argv0) dir).length < 2048) :
  Shell.words shellChars (plotCommand argv0 dir)
      = some [ascii "python3", plotText argv0, dir, ascii "--out", dir ++ ascii "/figures"]
    ↔ 39 ∉ plotText argv0 ∧ 39 ∉ dir
  := by
  have hpath : plotPath argv0 = plotText argv0 := by
    apply List.take_of_length_le
    omega
  have hcmd : plotCommand argv0 dir
      = Shell.command shellChars 32 (plotPieces (plotText argv0) dir) := by
    rw [plotCommand, hpath, ← commandText_eq]
    apply List.take_of_length_le
    omega
  have hsep : Shell.Separates shellChars 32 := ⟨rfl, by decide, by decide, by decide⟩
  have hiff := Shell.words_command_iff hsep (plotPieces_sound (plotText argv0) dir)
  have hvalue : (plotPieces (plotText argv0) dir).map Shell.Piece.value
      = [ascii "python3", plotText argv0, dir, ascii "--out", dir ++ ascii "/figures"] := rfl
  have hfigures : (39 : UInt8) ∉ ascii "/figures" := by decide
  rw [hcmd, ← hvalue, hiff]
  constructor
  · intro h
    constructor
    · exact h (.quoted (plotText argv0)) (by simp [plotPieces])
    · exact h (.quoted dir) (by simp [plotPieces])
  · rintro ⟨hquote, hdir⟩ p hp
    simp only [plotPieces, List.mem_cons, List.not_mem_nil, or_false] at hp
    rcases hp with rfl | rfl | rfl | rfl | rfl
    · trivial
    · exact hquote
    · exact hdir
    · trivial
    · show (39 : UInt8) ∉ dir ++ ascii "/figures"
      rw [List.mem_append]
      rintro (h | h)
      · exact hdir h
      · exact hfigures h

/-- A directory without a single quote. -/
theorem plotCommand_iff_example :
  Shell.words shellChars (plotCommand (ascii "./keybench") (ascii "out/20260101-000000"))
      = some [ascii "python3", plotText (ascii "./keybench"), ascii "out/20260101-000000",
        ascii "--out", ascii "out/20260101-000000" ++ ascii "/figures"]
    ↔ 39 ∉ plotText (ascii "./keybench") ∧ 39 ∉ ascii "out/20260101-000000"
  := plotCommand_iff (by decide) (by decide)

/-- A directory that ends the quotes and begins another command. -/
theorem plotCommand_not :
  Shell.words shellChars (plotCommand (ascii "./keybench") (ascii "a';id;'b/20260101-000000"))
    ≠ some [ascii "python3", plotText (ascii "./keybench"), ascii "a';id;'b/20260101-000000",
      ascii "--out", ascii "a';id;'b/20260101-000000" ++ ascii "/figures"]
  := by
  decide +kernel

end Keybench
