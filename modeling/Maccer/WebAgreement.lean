import Maccer.TextLetters
import Maccer.WebScan

/-! When `mac-web.lua` makes of a text what `mac.lua` makes of it. -/

namespace Maccer

open Lua

/-! The tokens. -/

namespace Tables

variable (t : Tables)

/-! What is taken off a token. -/

end Tables

namespace Tables

variable (t : Tables)

section

variable {fuel fuel' : Nat} {wlower suresubw : Str}
  (bare : Utf8.replace wlower (field t.unicode.macroninvtbl) = .ok suresubw)
  (calls : t.webSubword fuel' wlower true none = .ok (wlower, []))
include bare calls

end

end Tables

end Maccer
