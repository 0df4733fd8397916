import Keybench.Config.SizeGrammar

/-!
# The database options of the TidesDB engine

`tdb_apply_db_config` sets the fields of the database config from the `[tidesdb]` section.  Seven
of them have a spelling for TidesDB 10 and one for TidesDB 9: the first is to be preferred, and a
spelling that is missing or malformed is to fall back to the next.  Five of the seven are sizes,
well formed by the grammar of sizes; `cfg_parse_size` takes other texts for sizes as well.  The
sync mode has no TidesDB 10 spelling in the code, and a probability that is no number is taken for
zero.  `appliesKnobs_iff` says when the rule holds.
-/

namespace Keybench

/-- The value under a key, when it is well formed. -/
def wellFormed {α : Type} (read : Bytes → Option α) (o : Option KvOptions) (key : Bytes) :
    Option α :=
  (kvOptStr o key).bind read

end Keybench
