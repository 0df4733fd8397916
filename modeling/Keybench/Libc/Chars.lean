import Keybench.Bytes
import Keybench.Lib.Text

/-!
# Characters and strings of the C library

The functions of `<ctype.h>` and `<string.h>` that the program calls, in the C locale.  A C
string is the list of its bytes before the terminating NUL.
-/

namespace Keybench

/-- The byte of an ASCII character. -/
def chr (c : Char) : UInt8 := c.toNat.toUInt8

/-- `isspace`: the blank and the five control characters from tab to carriage return. -/
def isspace (c : UInt8) : Bool := c = 32 || (9 ≤ c.toNat && c.toNat ≤ 13)

/-- `isdigit`. -/
def isdigit (c : UInt8) : Bool := 48 ≤ c.toNat && c.toNat ≤ 57

/-- `toupper`. -/
def toupper (c : UInt8) : UInt8 := if 97 ≤ c.toNat ∧ c.toNat ≤ 122 then c - 32 else c

/-- The string in a buffer: the bytes before the first NUL. -/
def cString (buf : Bytes) : Bytes := buf.takeWhile (fun c => c != 0)

/-- What `snprintf (buf, n, "%s", s)` leaves in the buffer. -/
def snprintfStr (n : ℕ) (s : Bytes) : Bytes := s.take (n - 1)

/-- A buffer without a NUL is its own string. -/
theorem cString_eq_self {l : Bytes} (h : 0 ∉ l) :
  cString l = l
  := by
  apply List.takeWhile_eq_self_iff.mpr
  intro c hc
  have hne : c ≠ 0 := fun heq => h (heq ▸ hc)
  simpa using hne

/-- No string has a NUL. -/
theorem zero_notMem_cString (l : Bytes) :
  0 ∉ cString l
  := by
  intro h
  have hp := List.mem_takeWhile_imp h
  simp at hp

/-- A string is a prefix of its buffer. -/
theorem cString_isInit (l : Bytes) :
  cString l <+: l
  := by
  apply List.takeWhile_prefix

/-- The string of a buffer that goes on. -/
theorem cString_append {a : Bytes} (h : 0 ∉ a) (b : Bytes) :
  cString (a ++ b) = a ++ cString b
  := by
  apply List.takeWhile_append_of_pos
  intro c hc
  have hne : c ≠ 0 := fun heq => h (heq ▸ hc)
  simpa using hne

/-- What follows a NUL does not matter. -/
theorem cString_append_of_mem {a : Bytes} (h : 0 ∈ a) (b : Bytes) :
  cString (a ++ b) = cString a
  := by
  obtain ⟨p, q, rfl, hp⟩ := List.eq_append_cons_of_mem h
  have happ : p ++ 0 :: q ++ b = p ++ 0 :: (q ++ b) := by simp
  rw [happ, cString_append hp, cString_append hp]
  rfl

end Keybench
