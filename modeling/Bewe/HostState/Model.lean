import Bewe.Df.Settings
import Bewe.Lib.Binary32
import Bewe.Lib.Layout
import Bewe.Saved.Schedules

/-!
# The saved state of HOST

The limits and the default squelch with which `host_state.cpp` reads back the file that HOST writes of
its radio, its direction finding, its channels and its notches. Floats are their bits.
-/

namespace Bewe.HostState

open Lib
open Saved (Chars copyName numberOr0 skipDepth)
open EmitterDb (quote backslash comma colon openBrace closeBrace openBracket closeBracket member)
open Df (PktDfConfig kMaxElements)

/-- The channels of a HOST. -/
abbrev MAX_CHANNELS : ℕ := 50

/-- The notches that are saved and loaded at most. -/
def MAX_NOTCHES : ℕ := 32

/-! ## Channels -/

/-- Zero. -/
def zero : Binary32 := ⟨0⟩

/-- `-50.0f`, the squelch of a channel that has none yet. -/
def sqNone : Binary32 := ⟨0xc2480000⟩

end Bewe.HostState
