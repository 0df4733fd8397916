import Keybench.Config.Load
import Keybench.Libc.Numbers

/-!
# Sizes

The value of a numeric key is a number with an optional suffix for a power of 1024.
-/

namespace Keybench

/-- The factor for the text after the number, if there is one. -/
def suffixMult (s : Bytes) : Option ℚ :=
  match s with
  | [] => some 1
  | c :: _ =>
    if toupper c = chr 'K' then some 1024
    else if toupper c = chr 'M' then some (1024 * 1024)
    else if toupper c = chr 'G' then some (1024 * 1024 * 1024)
    else if toupper c = chr 'T' then some (1024 * 1024 * 1024 * 1024)
    else none

/-- `cfg_parse_size`. -/
def cfgParseSize (s : Bytes) (dflt : ℤ) : ℤ :=
  if s = [] then dflt
  else
    let p := strtod s
    match suffixMult (p.rest.dropWhile isspace) with
    | some mult => (p.value.scale mult).toInt64
    | none => dflt

/-- `kv_opt_int`. -/
def kvOptInt (o : Option KvOptions) (key : Bytes) (dflt : ℤ) : ℤ :=
  match kvOptStr o key with
  | some v => cfgParseSize v dflt
  | none => dflt

end Keybench
