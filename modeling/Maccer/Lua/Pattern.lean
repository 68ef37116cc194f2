import Maccer.Lua.Str

/-! Lua patterns, after the matcher of the bundled LuaJIT (`lib_string.c`).

Subject positions inside the matcher count from zero; the functions a script
calls give and take one-based positions. -/

namespace Lua

def inRange (low high b : UInt8) : Bool := low ≤ b && b ≤ high

def isUpper (b : UInt8) : Bool := inRange 65 90 b
def isLower (b : UInt8) : Bool := inRange 97 122 b
def isAlpha (b : UInt8) : Bool := isUpper b || isLower b
def isSpace (b : UInt8) : Bool := inRange 9 13 b || b == 32

def isPunct (b : UInt8) : Bool :=
  inRange 33 47 b || inRange 58 64 b || inRange 91 96 b || inRange 123 126 b

theorem digit_not_alpha (b : UInt8) (digit : isDigit b = true) : isAlpha b = false := by
  grind [isDigit, isAlpha, isUpper, isLower, inRange]

def classOf (letter : UInt8) : Option (UInt8 → Bool) :=
  if letter = 97 then some isAlpha
  else if letter = 99 then some fun b => b < 32 || b == 127
  else if letter = 100 then some isDigit
  else if letter = 103 then some fun b => inRange 33 126 b
  else if letter = 108 then some isLower
  else if letter = 112 then some isPunct
  else if letter = 115 then some isSpace
  else if letter = 117 then some isUpper
  else if letter = 119 then some fun b => isAlpha b || isDigit b
  else if letter = 120 then some fun b => isDigit b || inRange 65 70 b || inRange 97 102 b
  else if letter = 122 then some fun b => b == 0
  else none

def matchClass (b name : UInt8) : Bool :=
  match classOf (if isUpper name then name + 32 else name) with
  | some inside => if isUpper name then !inside b else inside b
  | none => name == b

def setEnd : Str → Option Str
  | [] => none
  | 37 :: _ :: rest => if rest.head? = some 93 then some rest.tail else setEnd rest
  | _ :: rest => if rest.head? = some 93 then some rest.tail else setEnd rest

def classEnd : Str → Option Str
  | [] => none
  | 37 :: rest => if rest = [] then none else some rest.tail
  | 91 :: rest => setEnd (if rest.head? = some 94 then rest.tail else rest)
  | _ :: rest => some rest

def inSet (b : UInt8) : Str → Bool
  | [] => false
  | 37 :: name :: rest => matchClass b name || inSet b rest
  | low :: 45 :: high :: rest => inRange low high b || inSet b rest
  | member :: rest => member == b || inSet b rest

def matchSet (b : UInt8) (body : Str) : Bool :=
  if body.head? = some 94 then !inSet b body.tail else inSet b body

def singleMatch (b : UInt8) (pattern rest : Str) : Bool :=
  match pattern with
  | [] => false
  | 46 :: _ => true
  | 37 :: item => item.head?.any (matchClass b)
  | 91 :: item => matchSet b (item.take (item.length - rest.length - 1))
  | member :: _ => member == b

inductive Extent where
  | unfinished
  | position
  | closed (length : Nat)
  deriving DecidableEq, Repr

structure Capture where
  start : Nat
  extent : Extent
  deriving DecidableEq, Repr

abbrev Outcome := Run (Option (Nat × List Capture))

def maxExpand (next : Nat → Outcome) (start : Nat) : Nat → Outcome
  | 0 => next start
  | count + 1 =>
      match next (start + (count + 1)) with
      | .ok none => maxExpand next start count
      | found => found

def minExpand (next : Nat → Outcome) (start : Nat) : Nat → Outcome
  | 0 => next start
  | count + 1 =>
      match next start with
      | .ok none => minExpand next (start + 1) count
      | found => found

def closeCapture (stop : Nat) (captures : List Capture) : Option (List Capture) :=
  match captures.reverse.span (fun capture => capture.extent != .unfinished) with
  | (_, []) => none
  | (closed, opened :: earlier) =>
      some ((closed ++ { opened with extent := .closed (stop - opened.start) } :: earlier).reverse)

def matchCapture (s : Str) (i : Nat) (digit : UInt8) (captures : List Capture) : Run (Option Nat) :=
  match captures[digit.toNat - 49]? with
  | some ⟨start, .closed length⟩ =>
      if digit = 48 then .error .raised
      else if i + length ≤ s.length ∧ (s.drop i).take length = (s.drop start).take length then
        .ok (some (i + length))
      else .ok none
  | _ => .error .raised

def matchBalance (opening closing : UInt8) : Str → Nat → Nat → Option Nat
  | [], _, _ => none
  | b :: rest, i, depth =>
      if b = closing then
        if depth = 1 then some (i + 1) else matchBalance opening closing rest (i + 1) (depth - 1)
      else if b = opening then matchBalance opening closing rest (i + 1) (depth + 1)
      else matchBalance opening closing rest (i + 1) depth

def repeated (s : Str) (i : Nat) (single : UInt8 → Bool) : Nat :=
  ((s.drop i).takeWhile single).length

def matchItem (s : Str) (next : Str → Nat → Outcome) (pattern rest : Str) (i : Nat) : Outcome :=
  let single := fun b => singleMatch b pattern rest
  let here := (s[i]?).any single
  match rest with
  | 63 :: after =>
      if here then
        match next after (i + 1) with
        | .ok none => next after i
        | found => found
      else next after i
  | 42 :: after => maxExpand (next after) i (repeated s i single)
  | 43 :: after =>
      if here then maxExpand (next after) (i + 1) (repeated s (i + 1) single) else .ok none
  | 45 :: after => minExpand (next after) i (repeated s i single)
  | _ => if here then next rest (i + 1) else .ok none

def atFrontier (s : Str) (i : Nat) (pattern rest : Str) : Bool :=
  let previous := if i = 0 then 0 else s.getD (i - 1) 0
  !singleMatch previous pattern rest && singleMatch (s.getD i 0) pattern rest

/-- `match`. Every call consumes part of the pattern, so its length is fuel
enough; the repetitions recur on the rest of the pattern only. -/
def matchHere (s : Str) : Nat → Str → Nat → List Capture → Outcome
  | 0, _, _, _ => .error .running
  | fuel + 1, pattern, i, captures =>
      match pattern with
      | [] => .ok (some (i, captures))
      | 0 :: _ => .ok (some (i, captures))
      | 40 :: 41 :: rest => matchHere s fuel rest i (captures ++ [⟨i, .position⟩])
      | 40 :: rest => matchHere s fuel rest i (captures ++ [⟨i, .unfinished⟩])
      | 41 :: rest =>
          match closeCapture i captures with
          | some closed => matchHere s fuel rest i closed
          | none => .error .raised
      | [36] => if i = s.length then .ok (some (i, captures)) else .ok none
      | 37 :: 98 :: opening :: closing :: rest =>
          if s[i]? = some opening then
            match matchBalance opening closing (s.drop (i + 1)) (i + 1) 1 with
            | some stop => matchHere s fuel rest stop captures
            | none => .ok none
          else .ok none
      | 37 :: 102 :: rest =>
          match rest.head?, classEnd rest with
          | some 91, some after =>
              if atFrontier s i rest after then matchHere s fuel after i captures else .ok none
          | _, _ => .error .raised
      | _ =>
          match classEnd pattern with
          | none => .error .raised
          | some rest =>
              match pattern with
              | 37 :: name :: _ =>
                  if isDigit name then
                    match matchCapture s i name captures with
                    | .ok (some stop) => matchHere s fuel rest stop captures
                    | .ok none => .ok none
                    | .error fault => .error fault
                  else matchItem s (fun q j => matchHere s fuel q j captures) pattern rest i
              | _ => matchItem s (fun q j => matchHere s fuel q j captures) pattern rest i

def matchAt (s pattern : Str) (i : Nat) : Outcome :=
  matchHere s (pattern.length + 1) pattern i []

def hasPattern (pattern : Str) : Bool := pattern.any (· ∈ lit "^$*+?.([%-")

def searchFrom (here : Nat → Outcome) : Nat → Nat → Run (Option (Nat × Nat × List Capture))
  | 0, _ => .ok none
  | count + 1, i =>
      match here i with
      | .ok (some (stop, captures)) => .ok (some (i, stop, captures))
      | .ok none => searchFrom here count (i + 1)
      | .error fault => .error fault

def searchStart (s : Str) (init : Int) : Nat :=
  min (if init < 0 then init + s.length else init - 1).toNat s.length

def findPattern (s pattern : Str) (init : Int) : Run (Option (Nat × Nat × List Capture)) :=
  let start := searchStart s init
  match pattern with
  | 94 :: rest => searchFrom (matchAt s rest) 1 start
  | _ => searchFrom (matchAt s pattern) (s.length - start + 1) start

def findPlain (s word : Str) (init : Int) : Option (Nat × Nat) :=
  let start := searchStart s init
  ((List.range' start (s.length - start + 1)).find? fun i => word.isPrefixOf (s.drop i)).map
    fun i => (i, i + word.length)

/-- `string.find`, giving the first position and the last. A match that leaves a capture open raises. -/
def find (s pattern : Str) (init : Int) : Run (Option (Int × Int)) :=
  if hasPattern pattern then do
    match ← findPattern s pattern init with
    | none => return none
    | some (start, stop, captures) =>
        if captures.any (·.extent = .unfinished) then throw .raised
        else return some ((start : Int) + 1, (stop : Int))
  else
    .ok ((findPlain s pattern init).map fun (start, stop) => ((start : Int) + 1, (stop : Int)))

def captured (s : Str) (start stop : Nat) (captures : List Capture) : List Str :=
  if captures = [] then [(s.take stop).drop start]
  else captures.map fun capture =>
    match capture.extent with
    | .closed length => (s.drop capture.start).take length
    | _ => decimal (capture.start + 1)

/-- `string.match` from the first position. -/
def lmatch (s pattern : Str) : Run (Option (List Str)) :=
  (findPattern s pattern 1).map fun found =>
    found.map fun (start, stop, captures) => captured s start stop captures

def fillIn (whole : Str) (groups : List Str) : Str → Run Str
  | 37 :: b :: rest =>
      if isDigit b then
        if b = 48 then (fillIn whole groups rest).map (whole ++ ·)
        else match groups[b.toNat - 49]? with
          | some group => (fillIn whole groups rest).map (group ++ ·)
          | none => .error .raised
      else (fillIn whole groups rest).map (b :: ·)
  | b :: rest => (fillIn whole groups rest).map (b :: ·)
  | [] => .ok []

/-- `string.gsub` with a replacement string, at most `count` times. Each round
of `fuel` passes a match or one byte. -/
def gsubFrom (s pattern replacement : Str) : Nat → Nat → Nat → Run Str
  | 0, _, _ => .error .running
  | fuel + 1, count, i =>
      if count = 0 then .ok (s.drop i)
      else match matchAt s pattern i with
        | .error fault => .error fault
        | .ok (some (stop, captures)) => do
            let text ← fillIn ((s.take stop).drop i) (captured s i stop captures) replacement
            if i < stop then
              let rest ← gsubFrom s pattern replacement fuel (count - 1) stop
              return text ++ rest
            else if i < s.length then
              let rest ← gsubFrom s pattern replacement fuel (count - 1) (i + 1)
              return text ++ (s.drop i).take 1 ++ rest
            else return text
        | .ok none =>
            if i < s.length then do
              let rest ← gsubFrom s pattern replacement fuel count (i + 1)
              return (s.drop i).take 1 ++ rest
            else .ok []

def gsub (s pattern replacement : Str) (count : Nat) : Run Str :=
  gsubFrom s pattern replacement (s.length + 2) count 0

/-- `string.gsub` without a count; there is a match at each position at most. -/
def gsubAll (s pattern replacement : Str) : Run Str := gsub s pattern replacement (s.length + 1)

end Lua
